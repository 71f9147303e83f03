import Infinity.Replay.Replayed

/-! # Statements that commit in the order of their ids

The ids of segments are given out while statements run, and the replay counts segments in the order
of the commits. The two agree as long as each statement commits when the ids before its own are
committed, and an append opens a segment when all ids that were taken are.

* `Writers.Inv`: the table at run time and the replayed one show the same layout.
* `Relabels`, `Inv.relabel`: changes of states that running compactions make.
-/

namespace Infinity.Replay

open Compaction (SegmentStatus)
open Foundations

variable {ρ : Type} {t' t : TableEntry ρ} {i : ℕ} {own : List ℕ} {st : Statement ρ}

/-! ## The condition -/

/-- Whether the segment under an id is committed, or the id is one of `own`. -/
def TableEntry.settled (t : TableEntry ρ) (own : List ℕ) (id : ℕ) : Bool :=
  own.contains id || (t.segmentMap id).any Segment.committed

def loggedIds (log : List (WalCmd ρ)) : List ℕ := log.flatMap fun
    | .append _ => []
    | .importSegment info => [info.segmentId]
    | .compact newSegmentInfos _ => newSegmentInfos.map SegmentInfo.segmentId

namespace Writers

/-- The segments that the append of the flush thread has written to. -/
def stored (s : Writers ρ) : List ℕ := (s.bottom.map fun p => p.2.stored).getD []

/-- The condition on a step. A statement commits segments when the ids before theirs are committed,
and it deprecates segments that imports and compactions have made; an append opens a segment when
all ids that were taken are committed. -/
def inOrder (s : Writers ρ) : WriterAction ρ → Bool
  | .appendRound =>
    !s.table.full || (List.range s.table.nextSegmentId).all (s.table.settled s.stored)
  | .commitBottom =>
    s.bottom.all fun p => (s.running p.1).all fun st =>
      (st.newIds.all fun id => (List.range id).all (s.table.settled st.newIds)) &&
        st.oldIds.all (loggedIds s.log).contains
  | _ => true

end Writers

def orderedWriting (ρ : Type) : TransitionSystem (Writers ρ) (WriterAction ρ) :=
  (writing ρ).restrict fun s a => s.inOrder a = true

/-! ## The invariant -/

/-- A state that a sealed segment can be in before it is deprecated. -/
def Active (status : SegmentStatus) : Prop :=
  status = .sealed ∨ status = .compacting ∨ status = .noDelete

/-- A segment that a statement has put into the map and not yet committed. -/
def Pending (t : TableEntry ρ) (own : List ℕ) (i : ℕ) (info : SegmentInfo ρ) : Prop :=
  t.segmentMap info.segmentId = some ⟨info.rows, .unsealed, false, i⟩ ∧ info.segmentId ∉ own

/-- The states of the logged segments at run time and in the replay. -/
def Logged (log : List (WalCmd ρ)) (t rep : TableEntry ρ) : Prop := ∀ id ∈ loggedIds log,
    (∃ status, t.status id = some status ∧ Active status ∧ rep.status id = some .sealed) ∨
      t.status id = some .deprecated ∧ rep.status id = some .deprecated

namespace Statement

def taken : Statement ρ → List ℕ
  | .importing segment saved => saved.map SegmentInfo.segmentId ++ segment.toList
  | st => st.newIds

def placed : Statement ρ → List (SegmentInfo ρ)
  | .importing _ saved => saved
  | .compact data true => data.map CompactSegmentData.newSegment
  | _ => []

end Statement

/-- What holds of a statement. -/
structure StatementOk (t : TableEntry ρ) (own : List ℕ) (i : ℕ) (st : Statement ρ) : Prop where
  sorted : st.taken.Pairwise (· < ·)
  taken_lt : ∀ id ∈ st.taken, id < t.nextSegmentId
  pending : ∀ info ∈ st.placed, Pending t own i info

/-- The layout of the committed segments is that of the replayed table, up to the rows that the
flush thread is appending. -/
structure Writers.Mirrors (s : Writers ρ) (rep : TableEntry ρ) (L : Layout ρ) (done : List ρ) :
    Prop where
  replay : replay s.log = .ok rep
  replayed : Replayed rep L
  logged : Logged s.log s.table rep
  shown : Shows (fun id => s.table.settled s.stored id = true) s.table (L.pushAll done)
  idle : s.bottom = none → done = []
  rest : ∀ i state, s.bottom = some (i, state) →
    ∃ st, s.running i = some st ∧ st.complete = true ∧ st.rows = done ++ state.rest

/-- What holds in every run in order. -/
structure Writers.Inv (s : Writers ρ) : Prop where
  mirrors : ∃ rep L done, s.Mirrors rep L done
  statements : ∀ i st, s.running i = some st → StatementOk s.table s.stored i st
  stored : ∀ id ∈ s.stored, (s.table.segmentMap id).isSome
  sealing : ∀ i state, s.bottom = some (i, state) → ∀ id ∈ state.sealing,
      s.table.settled state.stored id = true ∧ ∀ u, s.table.unsealedId = some u → id < u

/-! ## Changes of states -/

/-- Some segments have moved between the active states. -/
structure Relabels (t t' : TableEntry ρ) : Prop where
  segment : ∀ id, t'.segmentMap id = t.segmentMap id ∨
    ∃ s status, t.segmentMap id = some s ∧ Active s.status ∧ Active status ∧
      t'.segmentMap id = some { s with status := status }
  next : t'.nextSegmentId = t.nextSegmentId
  unsealed : t'.unsealedId = t.unsealedId
  stray : t'.stray = t.stray

namespace Relabels

variable {t'' : TableEntry ρ} {id : ℕ} {s : Segment ρ}

theorem refl (t : TableEntry ρ) : Relabels t t := ⟨fun _ => .inl rfl, rfl, rfl, rfl⟩

theorem trans (h : Relabels t t') (h' : Relabels t' t'') : Relabels t t'' := by
  refine ⟨fun id => ?_, h'.next.trans h.next, h'.unsealed.trans h.unsealed, h'.stray.trans h.stray⟩
  rcases h'.segment id with heq' | ⟨s', status', hs', hactive₀, hactive', hset'⟩
  · rw [heq']
    exact h.segment id
  · rcases h.segment id with heq | ⟨s, status, hs, hactive, -, hset⟩
    · exact .inr ⟨s', status', heq ▸ hs', hactive₀, hactive', hset'⟩
    · cases hset.symm.trans hs'
      exact .inr ⟨s, status', hs, hactive, hactive', hset'⟩

theorem setSegment {status : SegmentStatus} (hs : t.segmentMap id = some s)
    (hactive : Active s.status) (hactive' : Active status) :
    Relabels t (t.setSegment id { s with status := status }) := by
  refine ⟨fun j => ?_, rfl, rfl, rfl⟩
  by_cases hj : j = id
  · subst hj
    exact .inr ⟨s, status, hs, hactive, hactive', TableEntry.setSegment_self⟩
  · exact .inl (TableEntry.setSegment_other hj)

section

variable (h : Relabels t t')
include h

theorem similar : Similar t t' := by
  refine ⟨fun id => ?_, h.next, h.unsealed, h.stray⟩
  rcases h.segment id with heq | ⟨s, status, hs, -, -, hset⟩
  · rw [heq]
  · rw [hs, hset]
    rfl

theorem settled (own : List ℕ) (id : ℕ) : t'.settled own id = t.settled own id := by
  rw [TableEntry.settled, TableEntry.settled]
  rcases h.segment id with heq | ⟨s, status, hs, -, -, hset⟩
  · rw [heq]
  · rw [hs, hset]
    rfl

/-- A segment that is not active keeps its state and everything else. -/
theorem eq_of_not_active (hs : t.segmentMap id = some s)
    (hactive : ¬ Active s.status) : t'.segmentMap id = some s := by
  rcases h.segment id with heq | ⟨s', status, hs', hactive', -, -⟩
  · rw [heq, hs]
  · cases hs.symm.trans hs'
    exact absurd hactive' hactive

theorem isSome (id : ℕ) : (t'.segmentMap id).isSome = (t.segmentMap id).isSome := by
  rcases h.segment id with heq | ⟨s, status, hs, -, -, hset⟩
  · rw [heq]
  · rw [hs, hset]
    rfl

end

end Relabels

theorem not_active_unsealed : ¬ Active .unsealed := by
  rintro (h | h | h) <;> cases h

theorem not_active_deprecated : ¬ Active .deprecated := by
  rintro (h | h | h) <;> cases h

theorem Pending.relabel {info : SegmentInfo ρ}
    (h : Pending t own i info) (hr : Relabels t t') : Pending t' own i info :=
  ⟨hr.eq_of_not_active h.1 not_active_unsealed, h.2⟩

theorem StatementOk.relabel (h : StatementOk t own i st) (hr : Relabels t t') :
    StatementOk t' own i st := by
  refine ⟨h.sorted, fun id hid => ?_, fun info hinfo => (h.pending info hinfo).relabel hr⟩
  rw [hr.next]
  exact h.taken_lt id hid

theorem Logged.relabel {log : List (WalCmd ρ)} {rep : TableEntry ρ} (h : Logged log t rep)
    (hr : Relabels t t') : Logged log t' rep := by
  intro id hid
  rcases hr.segment id with heq | ⟨s, status, hs, hactive, hactive', hset⟩
  · rw [TableEntry.status, heq]
    exact h id hid
  · rcases h id hid with ⟨-, -, -, hrep⟩ | ⟨hdeprecated, -⟩
    · exact .inl ⟨status, by rw [TableEntry.status, hset]; rfl, hactive', hrep⟩
    · rw [TableEntry.status, hs] at hdeprecated
      rw [Option.some.inj hdeprecated] at hactive
      exact absurd hactive not_active_deprecated

theorem Shows.relabel {visible : ℕ → Prop} {L : Layout ρ}
    (h : Shows visible t L) (hr : Relabels t t') : Shows visible t' L := by
  refine h.similar hr.similar fun id hid => ?_
  obtain ⟨-, s, hs, hstatus⟩ := h.writable id hid
  have hkept := hr.eq_of_not_active hs (hstatus ▸ not_active_unsealed)
  rw [TableEntry.status, hkept, Option.map_some, hstatus]

namespace Writers.Inv

variable {s : Writers ρ}

theorem relabel (h : s.Inv) (hr : Relabels s.table t') : (s.setTable t').Inv := by
  obtain ⟨rep, L, done, hm⟩ := h.mirrors
  refine ⟨⟨rep, L, done, hm.replay, hm.replayed, hm.logged.relabel hr, ?_, hm.idle, hm.rest⟩,
    fun i st hst => (h.statements i st hst).relabel hr, fun id hid =>
    ?_, fun i state hb id hid => ?_⟩
  · exact (hm.shown.relabel hr).congr fun id => by rw [← hr.settled]; rfl
  · rw [setTable, hr.isSome]
    exact h.stored id hid
  · rw [setTable, hr.settled, hr.unsealed]
    exact h.sealing i state hb id hid

theorem takeId (h : s.Inv) : s.takeId.Inv := by
  obtain ⟨rep, L, done, hm⟩ := h.mirrors
  refine ⟨⟨rep, L, done, hm.replay, hm.replayed, hm.logged, ⟨hm.shown.rows, hm.shown.unsealed,
    hm.shown.stray, hm.shown.writable, fun id hid => ?_⟩, hm.idle, hm.rest⟩, fun i st hst =>
    ?_, h.stored, h.sealing⟩
  · exact hm.shown.fresh id (Nat.le_of_succ_le hid)
  · have hok := h.statements i st hst
    exact ⟨hok.sorted, fun id hid => Nat.lt_succ_of_lt (hok.taken_lt id hid), hok.pending⟩

theorem setRunning (h : s.Inv) (hi : s.executes i) {st : Option (Statement ρ)}
    (hst : ∀ st', st = some st' → StatementOk s.table s.stored i st') :
    (s.setRunning i st).Inv := by
  obtain ⟨rep, L, done, hm⟩ := h.mirrors
  refine ⟨⟨rep, L, done, hm.replay, hm.replayed, hm.logged, hm.shown, hm.idle,
    fun j state hb => ?_⟩, fun j st' hj => ?_, h.stored, h.sealing⟩
  · have hne : j ≠ i := by
      have hb' : s.bottom = some (j, state) := hb
      simpa [executes, hb'] using hi
    obtain ⟨st', hst', hrows⟩ := hm.rest j state hb
    exact ⟨st', (if_neg hne).trans hst', hrows⟩
  · by_cases hji : j = i
    · subst hji
      exact hst st' ((if_pos rfl).symm.trans hj)
    · exact h.statements j st' ((if_neg hji).symm.trans hj)

theorem runStatement (h : s.Inv) (hi : s.executes i)
    (hst : StatementOk s.table s.stored i st) : (s.setRunning i (some st)).Inv := by
  apply h.setRunning hi
  intro st' heq
  rw [← Option.some.inj heq]
  exact hst

end Writers.Inv

end Infinity.Replay
