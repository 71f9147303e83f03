import Infinity.Replay.Layout

/-! # What the replay of a command does to the layout

The replay of the log is compared with a layout, one lemma for each kind of command. The segments of
imports and compactions come under the next ids only if these are the ids that are logged.

* `Replayed.walCmdAppendReplay`, `Replayed.addAll`, `deprecateReplay_ok`: the three parts of the
  commands.
* `modifyAll_setDeprecated`: what the commit of a compaction has found.
-/

namespace Infinity.Replay

open List Option Segment TableEntry

open Compaction (SegmentStatus)

variable {ρ : Type} {t t' : TableEntry ρ} {L : Layout ρ} {visible : ℕ → Prop}
  {id : ℕ} {ids : List ℕ} {s : Segment ρ} {t'' : TableEntry ρ}

/-! ## Operations on single segments -/

def TableEntry.status (t : TableEntry ρ) (id : ℕ) : Option SegmentStatus :=
  (t.segmentMap id).map Segment.status

@[simp] theorem TableEntry.status_setSegment_self :
    (t.setSegment id s).status id = some s.status := by
  simp [status]

theorem TableEntry.status_setSegment_other {j : ℕ} (hj : j ≠ id) :
    (t.setSegment id s).status j = t.status j := by
  rw [status, setSegment_other hj, status]

/-- The tables have the same rows. -/
structure Similar (t t' : TableEntry ρ) : Prop where
  rows : ∀ id, (t'.segmentMap id).map rows = (t.segmentMap id).map rows
  next : t'.nextSegmentId = t.nextSegmentId
  unsealed : t'.unsealedId = t.unsealedId
  stray : t'.stray = t.stray

namespace Similar

theorem refl (t : TableEntry ρ) : Similar t t := ⟨fun _ => rfl, rfl, rfl, rfl⟩

theorem trans (h : Similar t t') (h' : Similar t' t'') : Similar t t'' :=
  ⟨fun id => (h'.rows id).trans (h.rows id), h'.next.trans h.next, h'.unsealed.trans h.unsealed,
    h'.stray.trans h.stray⟩

theorem setSegment {s' : Segment ρ} (hs : t.segmentMap id = some s)
    (hrows : s'.rows = s.rows) : Similar t (t.setSegment id s') := by
  refine ⟨fun j => ?_, rfl, rfl, rfl⟩
  by_cases hj : j = id
  · subst hj
    simp [hs, hrows]
  · rw [setSegment_other hj]

theorem exists_iff (h : Similar t t') (rows : List ρ) :
      (∃ s, t'.segmentMap id = some s ∧ s.rows = rows) ↔
      ∃ s, t.segmentMap id = some s ∧ s.rows = rows := by
  have hmap := h.rows id
  rw [← map_eq_some_iff, ← map_eq_some_iff, hmap]

theorem none_iff (h : Similar t t') : t'.segmentMap id = none ↔ t.segmentMap id = none := by
  rw [← map_eq_none_iff, h.rows id, map_eq_none_iff]

end Similar

/-- The layout does not depend on the states of the segments, but for the unsealed one. -/
theorem Shows.similar (h : Shows visible t L) (hsim : Similar t t')
    (hstatus : ∀ id, L.unsealed = some id → t'.status id = some .unsealed) :
    Shows visible t' L := by
  constructor
  · intro id rows
    rw [hsim.exists_iff, h.rows]
  · exact hsim.unsealed.trans h.unsealed
  · exact hsim.stray.trans h.stray
  · intro id hid
    obtain ⟨s, hs, hstat⟩ := map_eq_some_iff.mp (hstatus id hid)
    exact ⟨(h.writable id hid).1, s, hs, hstat⟩
  · intro id hid
    rw [hsim.none_iff]
    exact h.fresh id (hsim.next ▸ hid)

theorem Shows.status_unsealed (h : Shows visible t L) (hid : L.unsealed = some id) :
    t.status id = some .unsealed := by
  obtain ⟨-, s, hs, hstatus⟩ := h.writable id hid
  simp [TableEntry.status, hs, hstatus]

section Modify

variable {f : Segment ρ → Except SegmentError (Segment ρ)} {P : TableEntry ρ → Prop}

theorem modify_eq_ok : t.modify f id = .ok t' ↔
    ∃ s s', t.segmentMap id = some s ∧ f s = .ok s' ∧ t' = t.setSegment id s' := by
  rw [TableEntry.modify]
  cases hs : t.segmentMap id with
  | none => simp
  | some s =>
    cases hf : f s with
    | error e => simp [Except.map, hf]
    | ok s' => simp [Except.map, hf, eq_comm]

theorem modifyAll_cons : t.modifyAll f (id :: ids) = t.modify f id >>= fun t => t.modifyAll f ids :=
  rfl

theorem modifyAll_cons_eq_ok : t.modifyAll f (id :: ids) = .ok t' ↔
    ∃ s s', t.segmentMap id = some s ∧ f s = .ok s' ∧ (t.setSegment id s').modifyAll f ids =
    .ok t' := by
  rw [modifyAll_cons]
  constructor
  · intro h
    cases hmod : t.modify f id with
    | error e =>
      rw [hmod] at h
      cases h
    | ok u =>
      rw [hmod] at h
      obtain ⟨s, s', hs, hf, rfl⟩ := modify_eq_ok.mp hmod
      exact ⟨s, s', hs, hf, h⟩
  · rintro ⟨s, s', hs, hf, h⟩
    rw [modify_eq_ok.mpr ⟨s, s', hs, hf, rfl⟩]
    exact h

/-- What each operation preserves is preserved by the loop. -/
theorem modifyAll_invariant (hstep : ∀ t id s s', P t → id ∈ ids → t.segmentMap id = some s →
      f s = .ok s' →
      P (t.setSegment id s')) (h : P t) (hok : t.modifyAll f ids = .ok t') : P t' := by
  induction ids generalizing t with
  | nil =>
    cases hok
    exact h
  | cons id ids ih =>
    obtain ⟨s, s', hs, hf, hrest⟩ := modifyAll_cons_eq_ok.mp hok
    exact ih (fun t j s s' ht hj => hstep t j s s' ht (mem_cons_of_mem id hj))
      (hstep t id s s' h (.head _) hs hf) hrest

/-- The loop succeeds if each operation does and preserves what the next one needs. -/
theorem modifyAll_ok (hstep : ∀ t id, P t → id ∈ ids → ∃ s s', t.segmentMap id = some s ∧
      f s = .ok s' ∧
      P (t.setSegment id s')) (h : P t) : ∃ t', t.modifyAll f ids = .ok t' ∧ P t' := by
  induction ids generalizing t with
  | nil => exact ⟨t, rfl, h⟩
  | cons id ids ih =>
    obtain ⟨s, s', hs, hf, hnext⟩ := hstep t id h (.head _)
    obtain ⟨t', hok, ht'⟩ := ih (fun t j ht hj => hstep t j ht (mem_cons_of_mem id hj)) hnext
    exact ⟨t', modifyAll_cons_eq_ok.mpr ⟨s, s', hs, hf, hok⟩, ht'⟩

/-- An operation that keeps the rows keeps them in the loop. -/
theorem modifyAll_similar (hf : ∀ s s', f s = .ok s' → s'.rows = s.rows)
    (hok : t.modifyAll f ids = .ok t') : Similar t t' :=
  modifyAll_invariant (P :=
    Similar t) (fun _ _ _ _ ht _ hs hfs => ht.trans (.setSegment hs (hf _ _ hfs))) (.refl t) hok

end Modify

section Operations

variable {s' : Segment ρ}

theorem commitSegment_eq_ok : s.commitSegment = .ok s' ↔
    s.status ≠ .deprecated ∧ s' = { s with committed := true } := by
  rw [commitSegment]
  split <;> simp_all [eq_comm]

theorem setDeprecated_eq_ok : s.setDeprecated = .ok s' ↔
    s.status = .noDelete ∧ s' = { s with status := .deprecated } := by
  rw [setDeprecated]
  split <;> simp_all [eq_comm]

theorem setSealed_eq_ok : s.setSealed = .ok s' ↔ s.status = .unsealed ∧
    s' = { s with status := .sealed } := by
  rw [setSealed]
  split <;> simp_all [eq_comm]

theorem rollbackCompact_eq_ok : s.rollbackCompact = .ok s' ↔
    s.status = .noDelete ∧ s' = { s with status := .sealed } := by
  rw [rollbackCompact]
  split <;> simp_all [eq_comm]

theorem setNoDelete_eq_ok : s.setNoDelete = .ok s' ↔
    (s.status = .compacting ∨ s.status = .noDelete) ∧ s' = { s with status := .noDelete } := by
  rw [setNoDelete]
  split <;> simp_all [eq_comm]

theorem trySetCompacting_eq_some : s.trySetCompacting = some s' ↔
    s.status = .sealed ∧ s' = { s with status := .compacting } := by
  rw [trySetCompacting]
  split <;> simp_all [eq_comm]

theorem deprecateReplay_of_sealed (h : s.status = .sealed) :
    s.deprecateReplay = .ok { s with status := .deprecated } := by
  simp [deprecateReplay, trySetCompacting, h, setNoDelete, setDeprecated, bind, Except.bind]

end Operations

/-! ## The replayed table -/

/-- The replayed table holds the segments of the layout and no other ones. -/
structure Replayed (t : TableEntry ρ) (L : Layout ρ) : Prop where
  shown : Shows (fun _ => True) t L
  next : t.nextSegmentId = L.segments.length

theorem replayed_empty : Replayed (.empty : TableEntry ρ) .empty := by
  refine ⟨⟨fun id rows => ?_, rfl, rfl, nofun, fun _ _ => rfl⟩, rfl⟩
  simp [Layout.empty, empty]

def KeepsStatus (t t' : TableEntry ρ) : Prop := ∀ id status, t.status id = some status →
  t'.status id = some status

theorem KeepsStatus.trans (h : KeepsStatus t t') (h' : KeepsStatus t' t'') :
    KeepsStatus t t'' := fun id status hid => h' id status (h id status hid)

namespace Round

variable {i : ℕ} {state state' : AppendState ρ} {done : List ρ}

theorem keepsStatus (h : Round t i state id done t' state') : KeepsStatus t t' := by
  intro j status hj
  by_cases hid : j = id
  · subst hid
    rcases h.segment with ⟨-, -, -, s, hs, hs'⟩ | ⟨-, -, -, hnone, -⟩
    · rw [TableEntry.status, hs] at hj
      rw [TableEntry.status, hs']
      exact hj
    · rw [TableEntry.status, hnone] at hj
      cases hj
  · rw [TableEntry.status, h.other j hid]
    exact hj

theorem status_stored (h : Round t i state id done t' state')
    (hshow : Shows visible t L) : t'.status id = some .unsealed := by
  rcases h.segment with ⟨hid, -, -, s, hs, hs'⟩ | ⟨-, -, -, -, hs'⟩
  · have hstatus := hshow.status_unsealed (hshow.unsealed ▸ hid)
    rw [TableEntry.status, hs] at hstatus
    rw [TableEntry.status, hs']
    exact hstatus
  · rw [TableEntry.status, hs']
    rfl

end Round

/-- The loop of an append ends within as many rounds as there are rows. -/
theorem Replayed.appendData (i : ℕ) : ∀ (n : ℕ) {t : TableEntry ρ} {L : Layout ρ}
    {state : AppendState ρ}, Replayed t L → state.rest.length ≤ n →
    (∀ id ∈ state.stored, t.status id = some .unsealed) → ∃ t' state', appendData i n t state =
      .ok (t', state') ∧
      Replayed t' (L.pushAll state.rest) ∧ KeepsStatus t t' ∧ ∀ id ∈ state'.stored,
      t'.status id = some .unsealed
  | 0, t, L, state, h, hn, hstored => by
    have hrest : state.rest = [] := eq_nil_of_length_eq_zero (Nat.le_zero.mp hn)
    refine ⟨t, state, ?_, ?_, fun _ _ hid => hid, hstored⟩
    · rw [TableEntry.appendData, hrest]
      rfl
    · rw [hrest]
      exact h
  | n + 1, t, L, state, h, hn, hstored => by
    cases hrest : state.rest with
    | nil =>
      refine ⟨t, state, ?_, h, fun _ _ hid => hid, hstored⟩
      rw [TableEntry.appendData, hrest]
      rfl
    | cons r rows =>
      obtain ⟨u, state₁, id, done, hok, hround, hshow, hnext⟩ :=
        h.shown.appendRound (by rw [hrest]; exact cons_ne_nil r rows) (fun _ => h.next) i
      have hu : Replayed u (L.pushAll done) := by
        refine ⟨hshow.congr fun _ => ⟨fun _ => trivial, .inl⟩, ?_⟩
        have := h.next
        omega
      have hlen : state₁.rest.length ≤ n := by
        have hlength := congrArg List.length hround.rest
        have hpos : 0 < done.length := length_pos_iff.mpr hround.progress
        rw [length_append] at hlength
        omega
      have hstored₁ : ∀ j ∈ state₁.stored, u.status j = some .unsealed := by
        intro j hj
        rw [hround.stored, mem_append, mem_singleton] at hj
        rcases hj with hj | rfl
        · exact hround.keepsStatus j _ (hstored j hj)
        · exact hround.status_stored h.shown
      obtain ⟨t', state', hok', ht', hkeeps, hstored'⟩ := Replayed.appendData i n hu hlen hstored₁
      refine ⟨t', state', ?_, ?_, hround.keepsStatus.trans hkeeps, hstored'⟩
      · rw [TableEntry.appendData, hrest, isEmpty_cons, if_neg Bool.false_ne_true, hok]
        exact hok'
      · rw [← hrest, hround.rest, Layout.pushAll_append]
        exact ht'

/-- The segments that an append has stored can be committed. -/
theorem commitWrite_ok (h : ∀ id ∈ ids, t.status id = some .unsealed) :
    ∃ t', t.commitWrite ids = .ok t' ∧ Similar t t' ∧ ∀ id, t'.status id = t.status id := by
  refine modifyAll_ok (P := fun u => Similar t u ∧ ∀ id, u.status id = t.status id) ?_
    ⟨.refl t, fun _ => rfl⟩
  rintro u id ⟨hsim, hstatus⟩ hid
  obtain ⟨s, hs, hunsealed⟩ := map_eq_some_iff.mp ((hstatus id).trans (h id hid))
  refine ⟨s, { s with committed := true }, hs, commitSegment_eq_ok.mpr ⟨by simp [hunsealed], rfl⟩,
    hsim.trans (.setSegment hs rfl), fun j => ?_⟩
  by_cases hj : j = id
  · subst hj
    rw [TableEntry.status_setSegment_self, ← hstatus j, TableEntry.status, hs]
    rfl
  · rw [status_setSegment_other hj, hstatus j]

/-- **The replay of an append** ends without error and appends the rows of the block. -/
theorem Replayed.walCmdAppendReplay (h : Replayed t L) (block : List ρ) :
    ∃ t', t.walCmdAppendReplay block = .ok t' ∧ Replayed t' (L.pushAll block) ∧
    KeepsStatus t t' := by
  obtain ⟨u, state, hok, hu, hkeeps, hstored⟩ :=
    h.appendData 0 block.length (show (⟨block, [], []⟩ : AppendState ρ).rest.length ≤ _ from le_rfl)
      nofun
  obtain ⟨t', hok', hsim, hstatus⟩ := commitWrite_ok hstored
  refine ⟨t', ?_, ⟨hu.shown.similar hsim fun id hid => ?_, hsim.next.trans hu.next⟩,
    fun id status hid => (hstatus id).trans (hkeeps id status hid)⟩
  · rw [TableEntry.walCmdAppendReplay, hok]
    exact hok'
  · rw [hstatus id]
    exact hu.shown.status_unsealed hid

/-! ## Segments of the log -/

/-- A segment of the log whose id is the next one. -/
theorem Replayed.addSegmentReplayWal (h : Replayed t L) {info : SegmentInfo ρ}
    (hid : info.segmentId = L.segments.length) :
    Replayed (t.addSegmentReplayWal info) (L.add info.rows) ∧
      KeepsStatus t (t.addSegmentReplayWal info) ∧
      (t.addSegmentReplayWal info).status info.segmentId = some .sealed := by
  have hfresh : t.segmentMap info.segmentId = none := h.shown.fresh _ (by rw [hid, h.next])
  have hother : ∀ j, j ≠ info.segmentId → (t.addSegmentReplayWal info).segmentMap j =
      t.segmentMap j :=
    fun j hj => setSegment_other hj
  have hself : (t.addSegmentReplayWal info).segmentMap info.segmentId =
      some ⟨info.rows, .sealed, true, 0⟩ := setSegment_self
  have hne : ∀ j s, t.segmentMap j = some s → j ≠ info.segmentId := by
    rintro j s hs rfl
    cases hfresh.symm.trans hs
  refine ⟨⟨⟨fun j rows => ?_, h.shown.unsealed, ?_, fun j hj => ?_, fun j hj => ?_⟩, ?_⟩, ?_, ?_⟩
  · by_cases hj : j = info.segmentId
    · subst hj
      rw [hself, hid, Layout.add, getElem?_concat_length]
      simp
    · rw [hother j hj, ← h.shown.rows j rows, Layout.add, getElem?_concat_of_ne (hid ▸ hj)]
  · change (if t.unsealedId = some info.segmentId then _ else t.stray) = none
    rw [hfresh, or_none, ite_self]
    exact h.shown.stray
  · obtain ⟨-, s, hs, hstatus⟩ := h.shown.writable j hj
    exact ⟨trivial, s, (hother j (hne j s hs)).trans hs, hstatus⟩
  · have hlt : t.nextSegmentId + 1 ≤ j := hj
    have hnext := h.next
    rw [hother j (by omega)]
    exact h.shown.fresh j (by omega)
  · change t.nextSegmentId + 1 = (L.segments ++ [info.rows]).length
    rw [length_append, length_singleton, h.next]
  · intro j status hj
    obtain ⟨s, hs, -⟩ := map_eq_some_iff.mp hj
    rw [TableEntry.status, hother j (hne j s hs)]
    exact hj
  · rw [TableEntry.status, hself]
    rfl

/-- Segments of the log whose ids are the next ones. -/
theorem Replayed.addAll : ∀ {infos : List (SegmentInfo ρ)} {t : TableEntry ρ} {L : Layout ρ},
    Replayed t L → infos.map SegmentInfo.segmentId = List.range' L.segments.length infos.length →
    Replayed (infos.foldl TableEntry.addSegmentReplayWal t)
      (L.addAll (infos.map SegmentInfo.rows)) ∧
      KeepsStatus t (infos.foldl TableEntry.addSegmentReplayWal t) ∧
      ∀ info ∈ infos, (infos.foldl TableEntry.addSegmentReplayWal t).status info.segmentId =
      some .sealed
  | [], t, L, h, _ => by
    refine ⟨?_, fun _ _ hid => hid, nofun⟩
    simpa using h
  | info :: infos, t, L, h, hids => by
    rw [List.map_cons, List.length_cons, List.range'_succ, List.cons.injEq] at hids
    obtain ⟨hadd, hkeeps, hsealed⟩ := h.addSegmentReplayWal hids.1
    have hids' : infos.map SegmentInfo.segmentId = List.range' (L.add info.rows).segments.length
        infos.length := by
      rw [hids.2, Layout.add, length_append, length_singleton]
    obtain ⟨hall, hkeeps', hsealed'⟩ := hadd.addAll hids'
    refine ⟨?_, hkeeps.trans hkeeps', fun info' hinfo' => ?_⟩
    · simpa [Layout.addAll, Layout.add] using hall
    · rcases mem_cons.mp hinfo' with rfl | hmem
      · exact hkeeps' _ _ hsealed
      · exact hsealed' info' hmem

/-! ## Deprecated segments -/

/-- The states of the segments when some of them have become deprecated. -/
def Deprecates (ids : List ℕ) (t t' : TableEntry ρ) : Prop :=
  ∀ id, t'.status id = if id ∈ ids then some .deprecated else t.status id

theorem Deprecates.cons {u : TableEntry ρ}
    (hs : s.status = .deprecated) (hrest : Deprecates ids (t.setSegment id s) u) :
    Deprecates (id :: ids) t u := by
  intro j
  rw [hrest j]
  by_cases hj : j = id
  · subst hj
    simp [hs]
  · simp [hj, status_setSegment_other hj]

/-- The old segments of a compaction in the replay. -/
theorem deprecateReplay_ok : ∀ {ids : List ℕ} {t : TableEntry ρ}, ids.Nodup →
    (∀ id ∈ ids, t.status id = some .sealed) →
    ∃ t', t.modifyAll deprecateReplay ids = .ok t' ∧ Similar t t' ∧ Deprecates ids t t'
  | [], t, _, _ => ⟨t, rfl, .refl t, fun id => by simp⟩
  | id :: ids, t, hnodup, hsealed => by
    obtain ⟨hid, hnodup⟩ := nodup_cons.mp hnodup
    obtain ⟨s, hs, hstatus⟩ := map_eq_some_iff.mp (hsealed id (.head _))
    have hsealed' : ∀ j ∈ ids, (t.setSegment id { s with status := .deprecated }).status j =
        some .sealed := by
      intro j hj
      rw [status_setSegment_other (by rintro rfl; exact hid hj)]
      exact hsealed j (mem_cons_of_mem id hj)
    obtain ⟨t', hok, hsim, hdep⟩ := deprecateReplay_ok hnodup hsealed'
    have hset : Similar t (t.setSegment id { s with status := .deprecated }) := .setSegment hs rfl
    refine ⟨t', ?_, hset.trans hsim, hdep.cons rfl⟩
    exact modifyAll_cons_eq_ok.mpr ⟨s, _, hs, deprecateReplay_of_sealed hstatus, hok⟩

/-- What `SetDeprecated` of the old segments has found and done. -/
theorem modifyAll_setDeprecated :
    ∀ {ids : List ℕ} {t : TableEntry ρ}, t.modifyAll Segment.setDeprecated ids = .ok t' →
    ids.Nodup ∧ (∀ id ∈ ids, t.status id = some .noDelete) ∧ Deprecates ids t t'
  | [], t, h => by
    cases h
    exact ⟨.nil, nofun, fun id => by simp⟩
  | id :: ids, t, h => by
    obtain ⟨s, s', hs, hdep, hok⟩ := modifyAll_cons_eq_ok.mp h
    obtain ⟨hstatus, rfl⟩ := setDeprecated_eq_ok.mp hdep
    obtain ⟨hnodup, hnoDelete, hrest⟩ := modifyAll_setDeprecated hok
    have hid : id ∉ ids := by
      intro hmem
      have := hnoDelete id hmem
      simp at this
    refine ⟨nodup_cons.mpr ⟨hid, hnodup⟩, fun j hj => ?_, hrest.cons rfl⟩
    rcases mem_cons.mp hj with rfl | hmem
    · rw [TableEntry.status, hs, map_some, hstatus]
    · have hne : j ≠ id := by
        rintro rfl
        exact hid hmem
      have := hnoDelete j hmem
      rwa [status_setSegment_other hne] at this

end Infinity.Replay
