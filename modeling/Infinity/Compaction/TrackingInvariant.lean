import Infinity.Compaction.AlgorithmInvariant
import Infinity.Compaction.Tracking

/-! # The invariant of the table and the compaction algorithm

The condition under which the algorithm keeps track of the segments, and the invariant that then
holds: the algorithm's own one, that its places are taken by sealed segments only, by all of them
while it is enabled, and what a compaction that runs has in its hands.

* `TrackInv.ofSegments`, `TrackInv.setRecord`: steps that leave the algorithm alone.
-/

namespace Infinity.Compaction.Tracking

open Foundations List Function

theorem takeLargest_perm {size : ℕ} {segments rest : List (ℕ × ℕ)} {p : ℕ × ℕ}
    (h : takeLargest size segments = some (p, rest)) : segments.Perm (p :: rest) := by
  obtain ⟨q, hq, heq⟩ := Option.map_eq_some_iff.mp h
  obtain ⟨rfl, rfl⟩ := Prod.mk.inj heq
  have hne : segments.takeWhile (·.1 ≤ size) ≠ [] := by
    intro hnil
    rw [hnil] at hq
    cases hq
  have hlast : (segments.takeWhile (·.1 ≤ size)).dropLast ++ [q] =
      segments.takeWhile (·.1 ≤ size) := by
    rw [← dropLast_append_getLast hne]
    rw [getLast?_eq_getLast_of_ne_nil hne] at hq
    rw [Option.some.inj hq]
    simp
  have hsplit :
      segments = (segments.takeWhile (·.1 ≤ size)).dropLast ++ [q] ++
      segments.dropWhile (·.1 ≤ size) := by
    rw [hlast, takeWhile_append_dropWhile]
  rw [append_assoc, singleton_append] at hsplit
  exact (Perm.of_eq hsplit).trans perm_middle

theorem fillGroup_perm (rounds size : ℕ) (segments : List (ℕ × ℕ)) :
    segments.Perm ((fillGroup rounds size segments).1 ++ (fillGroup rounds size segments).2) := by
  induction rounds generalizing size segments with
  | zero => exact .rfl
  | succ rounds ih =>
    unfold fillGroup
    split
    · exact .rfl
    next s rest h => exact (takeLargest_perm h).trans ((ih (size - s.1) rest).cons s)

/-- The groups have each segment at most once. -/
theorem generate_subperm (size : ℕ) (intact : ℕ → Bool) (rounds : ℕ) (segments : List (ℕ × ℕ)) :
    (generate size intact rounds segments).flatten.Subperm (segments.map Prod.snd) := by
  induction rounds generalizing segments with
  | zero => exact nil_subperm
  | succ rounds ih =>
    have hperm := (fillGroup_perm segments.length size segments).map Prod.snd
    rw [map_append] at hperm
    unfold generate
    split
    · exact nil_subperm
    next s rest h =>
      rw [h] at hperm
      have hrest := ih rest
      split
      · exact (hrest.trans (sublist_append_right [s.2] _).subperm).trans hperm.symm.subperm
      · exact ((subperm_cons s.2).mpr hrest).trans hperm.symm.subperm
    next result rest _ _ h =>
      rw [h] at hperm
      exact ((subperm_append_left _).mpr (ih rest)).trans hperm.symm.subperm

/-- The condition under which the algorithm keeps track of the segments. A compaction takes no
segment that the algorithm has not been told of; an automatic compaction commits only if it has
compacted all segments that were picked, and is rolled back only after `Txn::Compact`; a manual
compaction ends only if each segment that was in the layers before is compacted or in the layers
again, and none is both. -/
def Table.accounted (s : Table) : Action → Bool
  | .trySetCompacting i => (s.compactions i).all fun k =>
      k.left.head?.all fun id => (s.segments id).all Segment.added
  | .commit i _ => (s.compactions i).all fun k =>
      match k.type with
      | .auto => k.takenOut.all (· ∈ k.olds)
      | .manual => s.returned k
  | .rollback i => (s.compactions i).all fun k =>
      match k.type with
      | .auto => k.compactData.getD [] ≠ []
      | .manual => k.compactData.getD [] = [] || s.returned k
  | _ => true

/-! ## The invariant -/

/-- What holds of a compaction. -/
structure RecordOk (s : Table) (i : ℕ) (k : CompactTxn) : Prop where
  taken : ∀ id ∈ k.taken, ∃ e, s.segments id = some e ∧
    (e.status = .compacting ∨ e.status = .noDelete) ∧ e.added = true
  auto : k.type = .auto → (i, k.takenOut) ∈ s.alg.pickedLists ∧ ∀ id, id ∈ k.taken ∨ id ∈ k.left →
    id ∈ k.takenOut
  manual : k.type = .manual → s.alg.status = .disable ∧
    ∀ id e, s.segments id = some e → e.live = true → e.added = true → id ∈ k.takenOut ∨
    id ∈ s.alg.held
  unplanned : k.groups = none → k.taken = [] ∧ k.left = [] ∧ k.compactData = none
  planned : ∀ groups, k.groups = some groups → groups.flatten.Nodup ∧
    ∀ id, id ∈ k.taken ∨ id ∈ k.left → id ∈ groups.flatten
  data : ∀ data, k.compactData = some data → ∃ (groups : List (List ℕ)) (newIds : List ℕ),
    k.groups = some groups ∧
    newIds.length = groups.length ∧ k.left = [] ∧
    data = newIds.zip (groups.map fun group => group.filter (· ∈ k.taken))

/-- What holds in every run whose steps are accounted for. -/
structure TrackInv (cfg : DBTConfig) (s : Table) : Prop where
  failed : s.failed = none
  alg : DBTCompactionAlg.Inv cfg s.actualRowCount s.alg
  places : ∀ id ∈ s.alg.held ++ s.alg.picked, ∃ e, s.segments id = some e ∧ e.live = true ∧
    e.added = true
  cover : s.alg.status ≠ .disable → ∀ id e, s.segments id = some e → e.live = true →
    e.added = true → id ∈ s.alg.held ++ s.alg.picked
  records : ∀ i k, s.compactions i = some k → RecordOk s i k
  txns : ∀ p ∈ s.alg.txn2Layer, ∃ k, s.compactions p.1 = some k ∧ k.type = .auto
  manual : ∀ i j k k', s.compactions i = some k → s.compactions j = some k' → k.type = .manual →
    k'.type = .manual → i = j
  taken : ∀ i j k k', s.compactions i = some k → s.compactions j = some k' →
    ∀ id ∈ k.taken, id ∈ k'.taken → i = j
  pending : ∀ id e, s.segments id = some e → e.added = false → e.status = .sealed

variable {cfg : DBTConfig} {s s' : Table} {i j id : ℕ} {k k' : CompactTxn} {f : Segment → Segment}
    {e : Segment}

theorem TrackInv.start : TrackInv cfg .start where
  failed := rfl
  alg := .make
  places := nofun
  cover _ _ _ h := by cases h
  records _ _ h := by cases h
  txns := nofun
  manual _ _ _ _ h := by cases h
  taken _ _ _ _ h := by cases h
  pending _ _ h := by cases h

theorem olds_eq {groups : List (List ℕ)} {newIds : List ℕ} (hlen : newIds.length = groups.length)
    (p : ℕ → Bool) :
    (newIds.zip (groups.map fun group => group.filter p)).flatMap Prod.snd =
    groups.flatten.filter p := by
  rw [flatMap_def, map_snd_zip (by rw [length_map, hlen]), filter_flatten]

/-- The old segments of a compaction are those that were taken. -/
theorem RecordOk.olds (h : RecordOk s i k) {data : List (ℕ × List ℕ)}
    (hdata : k.compactData = some data) : k.olds.Nodup ∧ ∀ id, id ∈ k.olds ↔ id ∈ k.taken := by
  obtain ⟨groups, newIds, hgroups, hlen, -, rfl⟩ := h.data data hdata
  obtain ⟨hnodup, hsub⟩ := h.planned groups hgroups
  have holds : k.olds = groups.flatten.filter (· ∈ k.taken) := by
    unfold CompactTxn.olds
    rw [hdata]
    exact olds_eq hlen _
  rw [holds]
  refine ⟨hnodup.filter _, fun id => ?_⟩
  rw [mem_filter, decide_eq_true_iff]
  exact ⟨And.right, fun hid => ⟨hsub id (.inl hid), hid⟩⟩

theorem RecordOk.olds_subset (h : RecordOk s i k) (hid : id ∈ k.olds) : id ∈ k.taken := by
  cases hdata : k.compactData with
  | none =>
    unfold CompactTxn.olds at hid
    rw [hdata] at hid
    cases hid
  | some data => exact ((h.olds hdata).2 id).mp hid

/-- A record stays in order when other parts of the table change. -/
theorem RecordOk.transfer (h : RecordOk s i k)
      (htaken : ∀ id ∈ k.taken, ∀ e, s.segments id = some e →
      (e.status = .compacting ∨ e.status = .noDelete) → e.added →
      ∃ e', s'.segments id = some e' ∧ (e'.status = .compacting ∨ e'.status = .noDelete) ∧ e'.added)
    (hauto : k.type = .auto → (i, k.takenOut) ∈ s.alg.pickedLists →
    (i, k.takenOut) ∈ s'.alg.pickedLists)
    (hmanual : k.type = .manual → s.alg.status = .disable → s'.alg.status = .disable ∧
      ∀ id e', s'.segments id = some e' → e'.live → e'.added →
        (∃ e, s.segments id = some e ∧ e.live ∧ e.added) ∧
          (id ∈ s.alg.held → id ∈ s'.alg.held) ∨ id ∈ s'.alg.held) :
    RecordOk s' i k where
  taken id hid := by
    obtain ⟨e, he, hstatus, hadded⟩ := h.taken id hid
    exact htaken id hid e he hstatus hadded
  auto htype := ⟨hauto htype (h.auto htype).1, (h.auto htype).2⟩
  manual htype := by
    obtain ⟨hdisable, hall⟩ := h.manual htype
    obtain ⟨hdisable', hall'⟩ := hmanual htype hdisable
    refine ⟨hdisable', fun id e' he' hlive' hadded' => ?_⟩
    rcases hall' id e' he' hlive' hadded' with ⟨⟨e, he, hlive, hadded⟩, hheld⟩ | hheld
    · rcases hall id e he hlive hadded with hout | hin
      · exact .inl hout
      · exact .inr (hheld hin)
    · exact .inr hheld
  unplanned := h.unplanned
  planned := h.planned
  data := h.data

/-! ## Steps that leave the algorithm alone -/

/-- The segments change in a way that the algorithm and the compactions do not see: they become
smaller, they move between the two states of a segment that is taken, and new ones come that the
algorithm has not been told of. -/
structure Unseen (s s' : Table) : Prop where
  forward : ∀ id e, s.segments id = some e → ∃ e', s'.segments id = some e' ∧ e'.live = e.live ∧
    e'.added = e.added ∧ e'.actualRowCount ≤ e.actualRowCount ∧
    (e.status = .compacting ∨ e.status = .noDelete → e'.status = .compacting ∨
    e'.status = .noDelete)
  backward : ∀ id e', s'.segments id = some e' → e'.live = true → e'.added = true →
    ∃ e, s.segments id = some e ∧ e.live = true ∧ e.added = true
  pending : ∀ id e', s'.segments id = some e' → e'.added = false → e'.status = .sealed ∨
    ∃ e, s.segments id = some e ∧ e.added = false ∧ e'.status = e.status

theorem RecordOk.ofSegments (h : RecordOk s i k) (hseg : Unseen s s') (halg : s'.alg = s.alg) :
    RecordOk s' i k := by
  apply h.transfer
  · intro id _ e he hstatus hadded
    obtain ⟨e', he', -, hadded', -, hstatus'⟩ := hseg.forward id e he
    exact ⟨e', he', hstatus' hstatus, hadded'.trans hadded⟩
  · rw [halg]
    exact fun _ => id
  · rw [halg]
    exact fun _ hdisable => ⟨hdisable, fun id e' he' hlive' hadded' =>
      .inl ⟨hseg.backward id e' he' hlive' hadded', fun hid => hid⟩⟩

theorem TrackInv.ofSegments (h : TrackInv cfg s) (hseg : Unseen s s') (halg : s'.alg = s.alg)
    (hfailed : s'.failed = s.failed) (hrecords : s'.compactions = s.compactions) :
    TrackInv cfg s' where
  failed := hfailed.trans h.failed
  alg := by
    rw [halg]
    apply h.alg.shrink
    intro id hid
    obtain ⟨e, he, -, -⟩ := h.places id hid
    obtain ⟨e', he', -, -, hle, -⟩ := hseg.forward id e he
    unfold Table.actualRowCount
    rw [he, he']
    exact hle
  places id hid := by
    rw [halg] at hid
    obtain ⟨e, he, hlive, hadded⟩ := h.places id hid
    obtain ⟨e', he', hlive', hadded', -, -⟩ := hseg.forward id e he
    exact ⟨e', he', hlive'.trans hlive, hadded'.trans hadded⟩
  cover hstatus id e' he' hlive' hadded' := by
    rw [halg] at hstatus ⊢
    obtain ⟨e, he, hlive, hadded⟩ := hseg.backward id e' he' hlive' hadded'
    exact h.cover hstatus id e he hlive hadded
  records i k hk := (h.records i k (hrecords ▸ hk)).ofSegments hseg halg
  txns := by
    rw [halg, hrecords]
    exact h.txns
  manual := by
    rw [hrecords]
    exact h.manual
  taken := by
    rw [hrecords]
    exact h.taken
  pending id e' he' hadded' := by
    rcases hseg.pending id e' he' hadded' with hsealed | ⟨e, he, hadded, hstatus⟩
    · exact hsealed
    · exact hstatus.trans (h.pending id e he hadded)

theorem segments_modifySegment (he : s.segments id = some e) :
    (s.modifySegment id f).segments j = if j = id then some (f e) else s.segments j := by
  unfold Table.modifySegment
  rw [he]
  by_cases hj : j = id
  · rw [if_pos hj, hj]
    exact update_self ..
  · rw [if_neg hj]
    exact update_of_ne hj ..

/-- A segment changes in such a way. -/
theorem unseen_modifySegment (he : s.segments id = some e)
    (hlive : (f e).live = e.live) (hadded : (f e).added = e.added)
    (hrows : (f e).actualRowCount ≤ e.actualRowCount)
    (hstatus : e.status = .compacting ∨ e.status = .noDelete → (f e).status = .compacting ∨
    (f e).status = .noDelete)
    (hpending : e.added = false → (f e).status = e.status) : Unseen s (s.modifySegment id f) := by
  have hget : ∀ j, (s.modifySegment id f).segments j =
      if j = id then some (f e) else s.segments j := fun j => segments_modifySegment he
  constructor
  · intro j ej hej
    rw [hget]
    split
    next hj =>
      cases he.symm.trans (hj ▸ hej)
      exact ⟨_, rfl, hlive, hadded, hrows, hstatus⟩
    · exact ⟨ej, hej, rfl, rfl, le_rfl, fun hej => hej⟩
  · intro j ej hej hlivej haddedj
    rw [hget] at hej
    split at hej
    next hj =>
      cases hej
      exact ⟨e, hj ▸ he, hlive.symm.trans hlivej, hadded.symm.trans haddedj⟩
    · exact ⟨ej, hej, hlivej, haddedj⟩
  · intro j ej hej haddedj
    rw [hget] at hej
    split at hej
    next hj =>
      cases hej
      have hnot := hadded.symm.trans haddedj
      exact .inr ⟨e, hj ▸ he, hnot, hpending hnot⟩
    · exact .inr ⟨ej, hej, haddedj, rfl⟩

theorem compactions_setCompaction {m : Option CompactTxn} :
    (s.setCompaction i m).compactions j = if j = i then m else s.compactions j := by
  unfold Table.setCompaction
  dsimp only
  split
  next hj => rw [hj, update_self]
  next hj => rw [update_of_ne hj]

/-- A record after one was set. -/
theorem records_cases {m : CompactTxn} (hm : (s.setCompaction i (some k)).compactions j = some m) :
    j = i ∧ m = k ∨ j ≠ i ∧ s.compactions j = some m := by
  rw [compactions_setCompaction] at hm
  split at hm
  next hj => exact .inl ⟨hj, (Option.some.inj hm).symm⟩
  next hj => exact .inr ⟨hj, hm⟩

/-- A compaction that runs changes its record. -/
theorem TrackInv.setRecord (h : TrackInv cfg s) (hk : s.compactions i = some k)
    (htype : k'.type = k.type)
    (hok : RecordOk s i k')
    (htaken : ∀ id ∈ k'.taken, id ∈ k.taken ∨ ∀ j m, s.compactions j = some m → id ∉ m.taken) :
    TrackInv cfg (s.setCompaction i (some k')) := by
  have hsame : ∀ {j m}, (s.setCompaction i (some k')).compactions j = some m →
      ∃ m₀, s.compactions j = some m₀ ∧ m.type = m₀.type := by
    intro j m hm
    rcases records_cases hm with ⟨rfl, rfl⟩ | ⟨-, hm⟩
    · exact ⟨k, hk, htype⟩
    · exact ⟨m, hm, rfl⟩
  refine { h with
    records := fun j m hm => ?_
    txns := fun p hp => ?_
    manual := fun j j' m m' hm hm' hmanual hmanual' => ?_
    taken := fun j j' m m' hm hm' id hid hid' => ?_ }
  · rcases records_cases hm with ⟨rfl, rfl⟩ | ⟨-, hm⟩
    · exact { hok with }
    · exact { h.records j m hm with }
  · obtain ⟨m, hm, hauto⟩ := h.txns p hp
    by_cases hj : p.1 = i
    · rw [hj] at hm ⊢
      cases hk.symm.trans hm
      exact ⟨k', compactions_setCompaction.trans (if_pos rfl), htype.trans hauto⟩
    · exact ⟨m, compactions_setCompaction.trans ((if_neg hj).trans hm), hauto⟩
  · obtain ⟨m₀, hm₀, ht⟩ := hsame hm
    obtain ⟨m₀', hm₀', ht'⟩ := hsame hm'
    exact h.manual j j' m₀ m₀' hm₀ hm₀' (ht ▸ hmanual) (ht' ▸ hmanual')
  · rcases records_cases hm with ⟨hj, rfl⟩ | ⟨-, hold⟩ <;>
      rcases records_cases hm' with ⟨hj', hm'⟩ | ⟨-, hold'⟩
    · exact hj.trans hj'.symm
    · rcases htaken id hid with hin | hnew
      · exact hj.trans (h.taken i j' k m' hk hold' id hin hid')
      · exact absurd hid' (hnew j' m' hold')
    · rcases htaken id (hm' ▸ hid') with hin | hnew
      · exact (h.taken j i m k hold hk id hid hin).trans hj'.symm
      · exact absurd hid (hnew j m hold)
    · exact h.taken j j' m m' hold hold' id hid hid'

end Infinity.Compaction.Tracking
