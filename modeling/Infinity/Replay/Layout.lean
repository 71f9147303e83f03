import Infinity.Replay.Writers

/-! # The layout of a table

What a table holds, without the states its segments are in: the rows of the segments in the order of
the ids, and which segment takes the next row. Both the table at run time and the replayed one are
compared with a layout; `Shows visible t L` says that those segments of `t` that `visible` picks are
laid out as `L` says.

* `Shows.appendRound`: a round of the append of the source is a number of these.
-/

namespace Infinity.Replay

open List TableEntry

open Compaction (SegmentStatus)

variable {ρ : Type}

/-! ## Layouts -/

/-- The rows of the segments `0`, `1`, …, and the unsealed one. -/
structure Layout (ρ : Type) where
  segments : List (List ρ)
  unsealed : Option ℕ

namespace Layout

def empty : Layout ρ := ⟨[], none⟩

def roomy (L : Layout ρ) : Option ℕ :=
  L.unsealed.filter fun id => (L.segments[id]?).any (·.length < defaultSegmentCapacity)

def push (L : Layout ρ) (r : ρ) : Layout ρ :=
  match L.roomy with
  | some id => { L with segments := L.segments.modify id (· ++ [r]) }
  | none => ⟨L.segments ++ [[r]], some L.segments.length⟩

def pushAll (L : Layout ρ) (rows : List ρ) : Layout ρ := rows.foldl push L

def add (L : Layout ρ) (rows : List ρ) : Layout ρ := { L with segments := L.segments ++ [rows] }

def addAll (L : Layout ρ) (segments : List (List ρ)) : Layout ρ :=
  { L with segments := L.segments ++ segments }

variable {L : Layout ρ} {id : ℕ} {seg rows rows' : List ρ}

@[simp] theorem pushAll_nil : L.pushAll [] = L := rfl

@[simp] theorem addAll_nil : L.addAll [] = L := by
  simp [addAll]

theorem pushAll_append : L.pushAll (rows ++ rows') = (L.pushAll rows).pushAll rows' := foldl_append

section

variable (hunsealed : L.unsealed = some id) (hseg : L.segments[id]? = some seg)
include hunsealed hseg

theorem roomy_eq_some (hroom : seg.length < defaultSegmentCapacity) : L.roomy = some id := by
  simp [roomy, hunsealed, hseg, hroom]

theorem roomy_eq_none (hfull : defaultSegmentCapacity ≤ seg.length) : L.roomy = none := by
  simp [roomy, hunsealed, hseg, not_lt.mpr hfull]

/-- Rows that the unsealed segment has room for go there. -/
theorem pushAll_of_room (hroom : seg.length + rows.length ≤ defaultSegmentCapacity) :
    L.pushAll rows = { L with segments := L.segments.set id (seg ++ rows) } := by
  induction rows generalizing L seg with
  | nil =>
    obtain ⟨hlt, rfl⟩ := List.getElem?_eq_some_iff.mp hseg
    rw [pushAll_nil, List.append_nil, List.set_getElem_self]
  | cons r rows ih =>
    rw [List.length_cons] at hroom
    have hpush : L.push r = { L with segments := L.segments.set id (seg ++ [r]) } := by
      rw [push, roomy_eq_some hunsealed hseg (by omega)]
      simp only [mk.injEq, and_true]
      rw [List.modify_eq_set_getElem?, hseg]
      rfl
    have hlt : id < L.segments.length := (List.getElem?_eq_some_iff.mp hseg).1
    have hseg' : (L.push r).segments[id]? = some (seg ++ [r]) := by
      rw [hpush]
      exact List.getElem?_set_self hlt
    change (L.push r).pushAll rows = _
    rw [ih (by rw [hpush]; exact hunsealed) hseg'
      (by rw [List.length_append, List.length_singleton]; omega), hpush]
    simp

end

/-- Rows that find no room open a segment. -/
theorem pushAll_of_full (hfull : L.roomy = none) (hne : rows ≠ [])
    (hroom : rows.length ≤ defaultSegmentCapacity) :
    L.pushAll rows = ⟨L.segments ++ [rows], some L.segments.length⟩ := by
  cases rows with
  | nil => exact absurd rfl hne
  | cons r rows =>
    rw [length_cons] at hroom
    have hpush : L.push r = ⟨L.segments ++ [[r]], some L.segments.length⟩ := by rw [push, hfull]
    have hseg : (L.push r).segments[L.segments.length]? = some [r] := by simp [hpush]
    change (L.push r).pushAll rows = _
    rw [pushAll_of_room (by rw [hpush]) hseg (by rw [length_singleton]; omega), hpush]
    simp

end Layout

/-! ## Tables and layouts -/

/-- The segments of the table that `visible` picks are laid out as `L` says. -/
structure Shows (visible : ℕ → Prop) (t : TableEntry ρ) (L : Layout ρ) : Prop where
  rows : ∀ id rows, L.segments[id]? = some rows ↔ visible id ∧ ∃ s, t.segmentMap id = some s ∧
    s.rows = rows
  unsealed : t.unsealedId = L.unsealed
  stray : t.stray = none
  writable : ∀ id, L.unsealed = some id → visible id ∧ ∃ s, t.segmentMap id = some s ∧
    s.status = .unsealed
  fresh : ∀ id, t.nextSegmentId ≤ id → t.segmentMap id = none

/-- What a round of an append that leaves `t'` and `state'` has done: it has put `done` into the
segment `id`, which was the unsealed one or is new. -/
structure Round (t : TableEntry ρ) (i : ℕ) (state : AppendState ρ) (id : ℕ) (done : List ρ)
    (t' : TableEntry ρ) (state' : AppendState ρ) : Prop where
  progress : done ≠ []
  rest : state.rest = done ++ state'.rest
  stored : state'.stored = state.stored ++ [id]
  other : ∀ j, j ≠ id → t'.segmentMap j = t.segmentMap j
  unsealed : t'.unsealedId = some id
  segment : (t.unsealedId = some id ∧ state'.sealing = state.sealing ∧
      t'.nextSegmentId = t.nextSegmentId ∧
      ∃ s, t.segmentMap id = some s ∧ t'.segmentMap id = some { s with rows := s.rows ++ done }) ∨
    (id = t.nextSegmentId ∧ state'.sealing = state.sealing ++ t.unsealedId.toList ∧
      t'.nextSegmentId = t.nextSegmentId + 1 ∧ t.segmentMap id = none ∧
      t'.segmentMap id = some ⟨done, .unsealed, false, i⟩)

section Append

variable {visible : ℕ → Prop} {t : TableEntry ρ} {L : Layout ρ} {id : ℕ} {s : Segment ρ} {j : ℕ}

@[simp] theorem TableEntry.setSegment_self : (t.setSegment id s).segmentMap id = some s := by
  simp [setSegment]

theorem TableEntry.setSegment_other (hj : j ≠ id) :
    (t.setSegment id s).segmentMap j = t.segmentMap j := by
  simp [setSegment, hj]

theorem TableEntry.fillUnsealed_eq (hstray : t.stray = none) (hid : t.unsealedId = some id)
    (hs : t.segmentMap id = some s) (hstatus : s.status = .unsealed)
    (hroom : s.rows.length < defaultSegmentCapacity) (state : AppendState ρ) :
    t.fillUnsealed state = .ok (t.setSegment id { s with rows := s.rows ++ state.rest.take s.room },
        { state with rest := state.rest.drop s.room, stored := state.stored ++ [id] }) := by
  simp [fillUnsealed, unsealedSegment, putUnsealed, Segment.appendData, hstray, hid, hs, hstatus,
    not_le.mpr hroom, Except.map]

/-- The rows that a new segment takes. -/
theorem getElem?_concat_of_ne {α : Type*} {l : List α} {a : α} (hj : j ≠ l.length) :
    (l ++ [a])[j]? = l[j]? := by
  grind

theorem TableEntry.fillUnsealed_openSegment (hfresh : t.segmentMap t.nextSegmentId = none) (i : ℕ)
    (state : AppendState ρ) :
          (t.openSegment i).fillUnsealed state = .ok ((t.openSegment i).setSegment t.nextSegmentId
          ⟨state.rest.take defaultSegmentCapacity, .unsealed, false, i⟩,
        { state with
          rest := state.rest.drop defaultSegmentCapacity
          stored := state.stored ++ [t.nextSegmentId] }) := by
  have hopen : (t.openSegment i).segmentMap t.nextSegmentId = some (.newSegmentEntry i) := by
    simp [openSegment, setSegment, hfresh]
  exact fillUnsealed_eq (by simp [openSegment, hfresh]) rfl hopen rfl
    (by simp [Segment.newSegmentEntry, defaultSegmentCapacity]) state

namespace Shows

section

variable (h : Shows visible t L)
include h

theorem congr {visible' : ℕ → Prop} (hv : ∀ j, visible j ↔ visible' j) : Shows visible' t L := by
  obtain rfl : visible = visible' := funext fun j => propext (hv j)
  exact h

theorem segment (hid : L.unsealed = some id) :
    ∃ s, t.segmentMap id = some s ∧ s.status = .unsealed ∧ L.segments[id]? = some s.rows := by
  obtain ⟨hvisible, s, hs, hstatus⟩ := h.writable id hid
  exact ⟨s, hs, hstatus, (h.rows id s.rows).mpr ⟨hvisible, s, hs, rfl⟩⟩

theorem unsealedSegment_eq : t.unsealedSegment = L.unsealed.bind t.segmentMap := by
  rw [unsealedSegment, h.stray, h.unsealed, Option.none_or]

theorem full_iff : t.full ↔ L.roomy = none := by
  rw [full, h.unsealedSegment_eq]
  cases hu : L.unsealed with
  | none => simp [Layout.roomy, hu]
  | some id =>
    obtain ⟨s, hs, -, hseg⟩ := h.segment hu
    rw [Option.bind_some, hs, Option.all_some, decide_eq_true_eq, Segment.room]
    rcases lt_or_ge s.rows.length defaultSegmentCapacity with hlt | hge
    · simp only [Layout.roomy_eq_some hu hseg hlt, reduceCtorEq, iff_false]
      omega
    · simp only [Layout.roomy_eq_none hu hseg hge, iff_true]
      omega

/-- The unsealed segment gets more rows. -/
theorem fill (hid : L.unsealed = some id) (hs : t.segmentMap id = some s) (new : List ρ) :
    Shows visible (t.setSegment id { s with rows := s.rows ++ new })
      { L with segments := L.segments.set id (s.rows ++ new) } := by
  obtain ⟨hvisible, s', hs', hstatus⟩ := h.writable id hid
  cases hs.symm.trans hs'
  have hseg := (h.rows id s.rows).mpr ⟨hvisible, s, hs, rfl⟩
  have hlt : id < L.segments.length := (List.getElem?_eq_some_iff.mp hseg).1
  constructor
  · intro j rows
    by_cases hj : j = id
    · subst hj
      simp [hlt, hvisible]
    · rw [getElem?_set_ne (Ne.symm hj), setSegment_other hj]
      exact h.rows j rows
  · exact h.unsealed
  · exact h.stray
  · intro j hj
    cases hid.symm.trans hj
    exact ⟨hvisible, _, setSegment_self, hstatus⟩
  · intro j hj
    have hne : j ≠ id := by
      rintro rfl
      rw [h.fresh j hj] at hs
      cases hs
    rw [setSegment_other hne]
    exact h.fresh j hj

/-- A segment with rows is opened under the next id. -/
theorem opened (hnext : t.nextSegmentId = L.segments.length) (i : ℕ) (rows : List ρ) :
    Shows (fun j => visible j ∨ j = t.nextSegmentId)
      ((t.openSegment i).setSegment t.nextSegmentId ⟨rows, .unsealed, false, i⟩)
      ⟨L.segments ++ [rows], some L.segments.length⟩ := by
  have hfresh := h.fresh t.nextSegmentId le_rfl
  have hother : ∀ j, j ≠ t.nextSegmentId → ((t.openSegment i).setSegment t.nextSegmentId
        ⟨rows, .unsealed, false, i⟩).segmentMap j = t.segmentMap j := by
    intro j hj
    rw [setSegment_other hj]
    exact setSegment_other hj
  constructor
  · intro j rows'
    by_cases hj : j = t.nextSegmentId
    · subst hj
      rw [setSegment_self, hnext, getElem?_concat_length]
      simp
    · rw [hother j hj, or_iff_left hj, ← h.rows j rows', getElem?_concat_of_ne (hnext ▸ hj)]
  · exact congrArg some hnext
  · simp [setSegment, TableEntry.openSegment, hfresh]
  · intro j hj
    cases hj
    exact ⟨.inr hnext.symm, _, by rw [← hnext]; exact setSegment_self, rfl⟩
  · intro j hj
    have hlt : t.nextSegmentId < j := hj
    rw [hother j (by omega)]
    exact h.fresh j (by omega)

/-- **A round of an append** puts rows where the layout says. A new segment must get the id that the
layout has for it. -/
theorem appendRound {state : AppendState ρ} (hne : state.rest ≠ [])
    (hnext : L.roomy = none → t.nextSegmentId = L.segments.length) (i : ℕ) :
    ∃ t' state' id done, t.appendRound i state = .ok (t', state') ∧
      Round t i state id done t' state' ∧ Shows (fun j => visible j ∨ j = id) t' (L.pushAll done) ∧
      t'.nextSegmentId + L.segments.length = t.nextSegmentId +
      (L.pushAll done).segments.length := by
  cases hroomy : L.roomy with
  | some id =>
    have hfull : ¬ t.full := by
      rw [h.full_iff, hroomy]
      exact nofun
    obtain ⟨hid, hany⟩ := Option.filter_eq_some_iff.mp hroomy
    obtain ⟨s, hs, hstatus, hseg⟩ := h.segment hid
    have hroom : s.rows.length < defaultSegmentCapacity := by simpa [hseg] using hany
    have hdef : s.room = defaultSegmentCapacity - s.rows.length := rfl
    have htake : (state.rest.take s.room).length ≤ s.room := length_take_le _ _
    have hround := fillUnsealed_eq h.stray (h.unsealed.trans hid) hs hstatus hroom state
    rw [TableEntry.appendRound, if_neg hfull]
    refine ⟨_, _, id, state.rest.take s.room, hround,
      ⟨?_, ?_, rfl, ?_, h.unsealed.trans hid, .inl ⟨?_, rfl, rfl, s, hs, ?_⟩⟩, ?_⟩
    · have hpos : s.room ≠ 0 := by omega
      simpa [hpos] using hne
    · exact (take_append_drop _ _).symm
    · exact fun j hj => setSegment_other hj
    · exact h.unsealed.trans hid
    · exact setSegment_self
    · rw [Layout.pushAll_of_room hid hseg (by omega)]
      refine ⟨(h.fill hid hs _).congr fun j => ⟨.inl, ?_⟩, ?_⟩
      · rintro (hj | rfl)
        · exact hj
        · exact (h.writable j hid).1
      · rw [length_set]
        rfl
  | none =>
    have hfull : t.full := h.full_iff.mpr hroomy
    have hfresh := h.fresh t.nextSegmentId le_rfl
    have hround :=
      fillUnsealed_openSegment hfresh i
        { state with sealing := state.sealing ++ t.unsealedId.toList }
    rw [TableEntry.appendRound, if_pos hfull]
    refine ⟨_, _, t.nextSegmentId, state.rest.take defaultSegmentCapacity, hround,
      ⟨?_, ?_, rfl, ?_, rfl, .inr ⟨rfl, rfl, rfl, hfresh, ?_⟩⟩, ?_⟩
    · simpa [defaultSegmentCapacity] using hne
    · exact (take_append_drop _ _).symm
    · intro j hj
      rw [setSegment_other hj]
      exact setSegment_other hj
    · exact setSegment_self
    · rw [Layout.pushAll_of_full hroomy (by simpa [defaultSegmentCapacity] using hne)
        (length_take_le _ _)]
      refine ⟨h.opened (hnext hroomy) i _, ?_⟩
      rw [length_append, length_singleton]
      change t.nextSegmentId + 1 + _ = _
      omega

end

end Shows

end Append

end Infinity.Replay
