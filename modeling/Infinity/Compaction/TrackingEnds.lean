import Infinity.Compaction.TrackingSteps

/-! # The end of a compaction

The commit and the rollback of a compaction, as far as the algorithm is concerned, and the main
result of the tracking of segments.

* `TrackInv.commit`, `TrackInv.rollback`: the two steps keep the invariant if they are accounted
  for.
* `tracked_of_accounted`: in every run whose steps are all accounted for, every segment is
tracked. -/

namespace Infinity.Compaction.Tracking

open Foundations List Option Function

variable {cfg : DBTConfig} {s s' : Table} {i j id : ℕ} {k k' : CompactTxn}
  {st : SegmentStatus} {back ids olds : List ℕ} {a a' : DBTCompactionAlg}
  {segments : ℕ → Option Segment} {e' e : Segment} {rows : ℕ → ℕ}

/-! ## A compaction ends -/

/-- The segments after the end of a compaction: the old ones have got a status, and new ones may be
there. -/
structure Replaced (s : Table) (olds : List ℕ) (st : SegmentStatus)
    (segments : ℕ → Option Segment) : Prop where
  forward : ∀ id e, s.segments id = some e →
    segments id = some (if id ∈ olds then { e with status := st } else e)
  backward : ∀ id e', segments id = some e' → (∃ e, s.segments id = some e) ∨
    e'.added = false ∧ e'.status = .sealed ∧ e'.deleteTxns = []

theorem Replaced.exists_old (h : Replaced s olds st segments) (he' : segments id = some e')
    (hadded : e'.added) : ∃ e, s.segments id = some e ∧ e.added ∧
      (id ∈ olds ∧ e'.status = st ∨ id ∉ olds ∧ e' = e) := by
  rcases h.backward id e' he' with ⟨e, he⟩ | ⟨hnot, -⟩
  · have hforward := h.forward id e he
    by_cases hid : id ∈ olds
    · rw [if_pos hid] at hforward
      cases he'.symm.trans hforward
      exact ⟨e, he, hadded, .inl ⟨hid, rfl⟩⟩
    · rw [if_neg hid] at hforward
      cases he'.symm.trans hforward
      exact ⟨e', he, hadded, .inr ⟨hid, rfl⟩⟩
  · cases hnot.symm.trans hadded

theorem Replaced.forward' (h : Replaced s olds st segments) (he : s.segments id = some e) :
    ∃ e', segments id = some e' ∧ e'.actualRowCount = e.actualRowCount ∧ e'.added = e.added ∧
      (id ∈ olds → e'.status = st) ∧ (id ∉ olds → e' = e) := by
  refine ⟨_, h.forward id e he, ?_⟩
  split
  next hid => exact ⟨rfl, rfl, fun _ => rfl, fun hnot => absurd hid hnot⟩
  next hid => exact ⟨rfl, rfl, fun hin => absurd hin hid, fun _ => rfl⟩

/-- A segment that a compaction has taken is sealed and not deprecated. -/
theorem RecordOk.live_of_taken (h : RecordOk s i k) (hid : id ∈ k.taken)
    (he : s.segments id = some e) : e.live ∧ e.added := by
  obtain ⟨e', he', hst, hadded⟩ := h.taken id hid
  cases he.symm.trans he'
  refine ⟨?_, hadded⟩
  unfold Segment.live
  rcases hst with hst | hst
  · rw [hst]
    rfl
  · rw [hst]
    rfl

/-- What the end of a compaction does: its old segments have got a status, new ones may have come,
and the algorithm is enabled, with the old segments in the layers if they are sealed again. -/
structure Ends (cfg : DBTConfig) (s : Table) (i : ℕ) (k : CompactTxn) (st : SegmentStatus)
    (s' : Table) : Prop where
  failed : s'.failed = none
  compactions : s'.compactions = update s.compactions i none
  replaced : Replaced s k.olds st s'.segments
  outcome : st = .deprecated ∨ st = .sealed
  alg : DBTCompactionAlg.Inv cfg s.actualRowCount s'.alg
  places : ∀ id, id ∈ s'.alg.held ++ s'.alg.picked ↔
    id ∈ s.alg.held ++ s.alg.picked ∧ id ∉ k.olds ∨ st = .sealed ∧ id ∈ k.olds
  known : ∀ id e, s.segments id = some e → e.live = true → e.added = true →
    id ∈ k.olds ∨ id ∈ s.alg.held ++ s.alg.picked
  lists : ∀ p ∈ s.alg.pickedLists, p.1 ≠ i → p ∈ s'.alg.pickedLists
  txns : ∀ p ∈ s'.alg.txn2Layer, p ∈ s.alg.txn2Layer ∧ p.1 ≠ i
  others : ∀ j m, s.compactions j = some m → j ≠ i → m.type = .auto

theorem Ends.exists_place (he : Ends cfg s i k st s') (h : TrackInv cfg s)
    (hk : s.compactions i = some k) (hid : id ∈ s'.alg.held ++ s'.alg.picked) :
    ∃ e e', s.segments id = some e ∧ s'.segments id = some e' ∧
      e'.actualRowCount = e.actualRowCount ∧ e'.live ∧ e'.added := by
  rcases (he.places id).mp hid with ⟨hplace, hnot⟩ | ⟨hst, hold⟩
  · obtain ⟨e, hes, hlive, hadded⟩ := h.places id hplace
    obtain ⟨e', hes', hrows, hadded', -, heq⟩ := he.replaced.forward' hes
    exact ⟨e, e', hes, hes', hrows, heq hnot ▸ hlive, hadded'.trans hadded⟩
  · obtain ⟨e, hes, -, hadded⟩ := (h.records i k hk).taken id ((h.records i k hk).olds_subset hold)
    obtain ⟨e', hes', hrows, hadded', hstatus, -⟩ := he.replaced.forward' hes
    refine ⟨e, e', hes, hes', hrows, ?_, hadded'.trans hadded⟩
    unfold Segment.live
    rw [hstatus hold, hst]
    rfl

theorem Ends.mem_places (he : Ends cfg s i k st s') (hes' : s'.segments id = some e')
    (hlive : e'.live) (hadded : e'.added) : id ∈ s'.alg.held ++ s'.alg.picked := by
  rw [he.places]
  obtain ⟨e, hes, hadded', ⟨hold, hst⟩ | ⟨hnot, rfl⟩⟩ := he.replaced.exists_old hes' hadded
  · rcases he.outcome with hdep | hsealed
    · -- a deprecated segment is not live
      unfold Segment.live at hlive
      rw [hst, hdep] at hlive
      cases hlive
    · exact .inr ⟨hsealed, hold⟩
  · exact .inl ⟨(he.known id e' hes hlive hadded).resolve_left hnot, hnot⟩

theorem TrackInv.ends (h : TrackInv cfg s) (hk : s.compactions i = some k)
    (he : Ends cfg s i k st s') : TrackInv cfg s' := by
  have hget : ∀ j m, s'.compactions j = some m → j ≠ i ∧ s.compactions j = some m := by
    intro j m hm
    rw [he.compactions] at hm
    by_cases hj : j = i
    · rw [hj, update_self] at hm
      cases hm
    · rw [update_of_ne hj] at hm
      exact ⟨hj, hm⟩
  constructor
  · exact he.failed
  · apply he.alg.shrink
    intro id hid
    obtain ⟨e, e', hes, hes', hrows, -, -⟩ := he.exists_place h hk hid
    unfold Table.actualRowCount
    rw [hes, hes']
    exact hrows.le
  · intro id hid
    obtain ⟨-, e', -, hes', -, hlive, hadded⟩ := he.exists_place h hk hid
    exact ⟨e', hes', hlive, hadded⟩
  · exact fun _ id e' hes' hlive hadded => he.mem_places hes' hlive hadded
  · intro j m hm
    obtain ⟨hj, hm⟩ := hget j m hm
    apply (h.records j m hm).transfer
    · intro id hid e hes hst hadded
      obtain ⟨e', hes', -, -, -, heq⟩ := he.replaced.forward' hes
      -- the old segments of the compaction were taken by no other
      have hnot : id ∉ k.olds := fun hin =>
        hj (h.taken j i m k hm hk id hid ((h.records i k hk).olds_subset hin))
      rw [heq hnot] at hes'
      exact ⟨e, hes', hst, hadded⟩
    · exact fun _ hin => he.lists _ hin hj
    · intro hmanual
      rw [he.others j m hm hj] at hmanual
      cases hmanual
  · intro p hp
    obtain ⟨hp, hne⟩ := he.txns p hp
    obtain ⟨m, hm, hauto⟩ := h.txns p hp
    rw [he.compactions, update_of_ne hne]
    exact ⟨m, hm, hauto⟩
  · intro j j' m m' hm hm'
    exact h.manual j j' m m' (hget j m hm).2 (hget j' m' hm').2
  · intro j j' m m' hm hm'
    exact h.taken j j' m m' (hget j m hm).2 (hget j' m' hm').2
  · intro id e' hes' hadded'
    rcases he.replaced.backward id e' hes' with ⟨e, hes⟩ | ⟨-, hsealed, -⟩
    · obtain ⟨e'', hes'', -, hadded, -, heq⟩ := he.replaced.forward' hes
      cases hes'.symm.trans hes''
      have hnot : id ∉ k.olds := by
        intro hin
        have htaken := (h.records i k hk).olds_subset hin
        rw [hadded, ((h.records i k hk).live_of_taken htaken hes).2] at hadded'
        cases hadded'
      rw [heq hnot] at hadded' ⊢
      exact h.pending id e hes hadded'
    · exact hsealed

/-- The list that goes is that of the compaction. -/
theorem TrackInv.finished_ids (h : TrackInv cfg s) (hk : s.compactions i = some k)
    (htype : k.type = .auto)
    (hf : DBTCompactionAlg.Finished cfg s.actualRowCount s.alg i ids back a) :
    ids = k.takenOut := by
  have hin := ((h.records i k hk).auto htype).1
  have hids : (i, ids) ∈ s.alg.pickedLists := hf.pickedLists.mem_iff.mpr mem_cons_self
  exact congrArg Prod.snd (inj_on_of_nodup_map h.alg.keys hids hin rfl)

theorem picked_finished
    (hf : DBTCompactionAlg.Finished cfg rows a i ids back a') :
    a.picked.Perm (ids ++ a'.picked) := by
  have hflat := hf.pickedLists.flatMap_right Prod.snd
  show (List.flatMap Prod.snd _).Perm (ids ++ List.flatMap Prod.snd _)
  simpa using hflat

/-- What is in a place before the end of an automatic compaction: it is in one afterwards, or it was
in the list. -/
theorem mem_places_finished (hf : DBTCompactionAlg.Finished cfg rows a i ids back a') :
    (id ∈ a.held ++ a.picked ↔ id ∈ a.held ∨ id ∈ ids ∨ id ∈ a'.picked) ∧
    (id ∈ a'.held ↔ id ∈ back ∨ id ∈ a.held) := by
  rw [mem_append, (picked_finished hf).mem_iff, mem_append, hf.held.mem_iff, mem_append]
  exact ⟨Iff.rfl, Iff.rfl⟩

theorem TrackInv.ends_auto (h : TrackInv cfg s)
    (hk : s.compactions i = some k) (htype : k.type = .auto) (hr : Replaced s k.olds st s'.segments)
    (hf : DBTCompactionAlg.Finished cfg s.actualRowCount s.alg i ids back s'.alg)
    (hcompactions : s'.compactions = update s.compactions i none) (hfailed : s'.failed = none)
    (hst : st = .deprecated ∧ back = [] ∧ (∀ id ∈ k.takenOut, id ∈ k.olds) ∨
      st = .sealed ∧ back = ids) : Ends cfg s i k st s' := by
  obtain ⟨n, -, hrunning⟩ := h.auto_list hk htype
  have hok := h.records i k hk
  have hids := h.finished_ids hk htype hf
  have holds : ∀ id ∈ k.olds, id ∈ ids := by
    intro id hid
    rw [hids]
    exact (hok.auto htype).2 id (.inl (hok.olds_subset hid))
  have hdisjoint : ∀ id ∈ ids, id ∉ s.alg.held ∧ id ∉ s'.alg.picked := by
    intro id hid
    have hnodup := (picked_finished hf).append_left s.alg.held |>.nodup_iff.mp h.alg.nodup
    obtain ⟨-, hpicked, hheld⟩ := nodup_append.mp hnodup
    exact ⟨fun hin => hheld id hin id (mem_append_left _ hid) rfl,
      fun hin => (nodup_append.mp hpicked).2.2 id hid id hin rfl⟩
  constructor
  · exact hfailed
  · exact hcompactions
  · exact hr
  · exact hst.imp And.left And.left
  · exact hf.inv
  · intro id
    obtain ⟨hbefore, hafter⟩ := mem_places_finished hf
    rw [hbefore, mem_append, hafter]
    rcases hst with ⟨rfl, rfl, htaken⟩ | ⟨rfl, rfl⟩
    · -- the list is gone, and with it exactly the old segments
      have hiff : id ∈ k.olds ↔ id ∈ ids := ⟨holds id, fun hid => htaken id (hids ▸ hid)⟩
      have hnot := hdisjoint id
      tauto
    · -- the list is in the layers again
      tauto
  · intro id e hes hlive hadded
    exact .inr (h.cover (by rw [hrunning]; nofun) id e hes hlive hadded)
  · intro p hp hne
    rcases mem_cons.mp (hf.pickedLists.mem_iff.mp hp) with rfl | hp
    · exact absurd rfl hne
    · exact hp
  · intro p hp
    rw [hf.txn2Layer, mem_filter, decide_eq_true_iff] at hp
    exact hp
  · intro j m hm hj
    cases hmanual : m.type with
    | auto => rfl
    | manual =>
      have hdisable := ((h.records j m hm).manual hmanual).1
      cases hrunning.symm.trans hdisable

/-- No list is picked while a manual compaction runs. -/
theorem TrackInv.picked_eq_nil (h : TrackInv cfg s) (hstatus : s.alg.status ≠ .running) :
    s.alg.picked = [] := by
  have hlists : s.alg.pickedLists = [] :=
    eq_nil_iff_forall_not_mem.mpr fun _ hp => hstatus (h.alg.running_of_picked hp)
  show List.flatMap Prod.snd _ = []
  rw [hlists]
  rfl

/-- A manual compaction ends, and the algorithm is enabled with the segments that it gives back. -/
theorem TrackInv.enable_manual {data : List (ℕ × List ℕ)}
    (h : TrackInv cfg s) (hk : s.compactions i = some k) (htype : k.type = .manual)
    (hdata : k.compactData = some data) (hreturned : s.returned k)
    (hst : st = .deprecated ∧ back = [] ∨ st = .sealed ∧ back = k.olds) :
    ∃ a, s.alg.enable cfg (back.map fun id => (id, s.actualRowCount id)) = .ok a ∧
      a.status = .enable ∧
      a.held.Perm (back ++ s.alg.held) ∧ ∀ s', s'.alg = a → s'.failed = none →
        s'.compactions = update s.compactions i none →
        Replaced s k.olds st s'.segments → Ends cfg s i k st s' := by
  have hok := h.records i k hk
  obtain ⟨hdisable, hknown⟩ := hok.manual htype
  have hnotrunning : s.alg.status ≠ .running := by
    rw [hdisable]
    nofun
  have hpicked := h.picked_eq_nil hnotrunning
  unfold Table.returned at hreturned
  simp only [Bool.and_eq_true, List.all_eq_true, Bool.or_eq_true, decide_eq_true_eq] at hreturned
  obtain ⟨hback, hnew⟩ := hreturned
  have hnodup : back.Nodup := by
    rcases hst with ⟨-, rfl⟩ | ⟨-, rfl⟩
    · exact .nil
    · exact (hok.olds hdata).1
  have hfresh : ∀ id ∈ back, id ∉ s.alg.held ++ s.alg.picked := by
    rw [hpicked, List.append_nil]
    rcases hst with ⟨-, rfl⟩ | ⟨-, rfl⟩
    · nofun
    · exact hnew
  obtain ⟨a, ha, hinv, hheld, hlists, henable, htxns⟩ := h.alg.enable hdisable hnodup hfresh
  refine ⟨a, ha, henable, hheld, ?_⟩
  rintro s' rfl hfailed hcompactions hr
  constructor
  · exact hfailed
  · exact hcompactions
  · exact hr
  · exact hst.imp And.left And.left
  · exact hinv
  · intro id
    have hpicked' : s'.alg.picked = [] := (congrArg (List.flatMap Prod.snd) hlists).trans hpicked
    rw [hpicked', hpicked, List.append_nil, List.append_nil, hheld.mem_iff, List.mem_append]
    rcases hst with ⟨rfl, rfl⟩ | ⟨rfl, rfl⟩
    · tauto
    · tauto
  · intro id e hes hlive hadded
    rw [hpicked, List.append_nil]
    rcases hknown id e hes hlive hadded with hid | hid
    · exact hback id hid
    · exact .inr hid
  · exact fun p hp _ => hlists ▸ hp
  · intro p hp
    rw [htxns] at hp
    refine ⟨hp, ?_⟩
    rintro rfl
    obtain ⟨k', hk', hauto⟩ := h.txns p hp
    cases hk.symm.trans hk'
    cases htype.symm.trans hauto
  · intro j m hm hj
    exact absurd (h.manual j i m k hm hk (h.no_auto hnotrunning hm) htype) hj

/-! ## Commit and rollback -/

theorem replaced_modifyAll (s : Table) (olds : List ℕ) (st : SegmentStatus) :
    Replaced s olds st (s.modifyAll olds ({ · with status := st })).segments where
  forward id e he := by
    dsimp only [Table.modifyAll]
    rw [he]
    split
    next => rfl
    next => rfl
  backward id e' he' := by
    left
    dsimp only [Table.modifyAll] at he'
    split at he'
    · obtain ⟨e, he, -⟩ := map_eq_some_iff.mp he'
      exact ⟨e, he⟩
    · exact ⟨e', he'⟩

theorem Replaced.sealNew {t : Table} {news : List (ℕ × ℕ)} (h : Replaced s olds st t.segments)
    (hnew : ∀ n ∈ news, s.segments n.1 = none) : Replaced s olds st (t.sealNew news).segments where
  forward id e he := by
    have hfind : news.find? (·.1 = id) = none := by
      rw [find?_eq_none]
      intro n hn heq
      have hnone := hnew n hn
      rw [decide_eq_true_iff.mp heq, he] at hnone
      cases hnone
    dsimp only [Table.sealNew]
    rw [hfind]
    exact h.forward id e he
  backward id e' he' := by
    dsimp only [Table.sealNew] at he'
    cases hfind : news.find? (·.1 = id) with
    | none =>
      rw [hfind] at he'
      exact h.backward id e' he'
    | some n =>
      rw [hfind] at he'
      cases he'
      exact .inr ⟨rfl, rfl, rfl⟩

section

variable (h : TrackInv cfg s)
include h

theorem TrackInv.commit {rowCounts : List ℕ} (haccounted : s.accounted (.commit i rowCounts))
    (hs : s.commit cfg i rowCounts = some s') : TrackInv cfg s' := by
  obtain ⟨k, hk, hs⟩ := bind_eq_some_iff.mp hs
  obtain ⟨data, hdata, hs⟩ := bind_eq_some_iff.mp hs
  dsimp only [Table.accounted] at haccounted
  rw [hk, all_some] at haccounted
  split at hs
  next hguard =>
    have hr : Replaced s k.olds .deprecated
        ((s.modifyAll k.olds ({ · with status := .deprecated })).sealNew
        ((data.map Prod.fst).zip rowCounts)).segments := by
      apply (replaced_modifyAll s k.olds .deprecated).sealNew
      intro n hn
      obtain ⟨d, hd, hdn⟩ := mem_map.mp (of_mem_zip hn).1
      rw [← hdn]
      exact hguard.1 d hd
    cases htype : k.type with
    | auto =>
      rw [htype] at hs haccounted
      obtain ⟨n, htxn, hrunning⟩ := h.auto_list hk htype
      obtain ⟨ids, a, ha, hf⟩ := h.alg.commitCompact hrunning htxn
      rw [ha] at hs
      cases hs
      have htaken : ∀ id ∈ k.takenOut, id ∈ k.olds := by
        intro id hid
        exact decide_eq_true_iff.mp (all_eq_true.mp haccounted id hid)
      exact h.ends hk (h.ends_auto hk htype hr hf rfl h.failed (.inl ⟨rfl, rfl, htaken⟩))
    | manual =>
      rw [htype] at hs haccounted
      obtain ⟨a, ha, -, -, hends⟩ := h.enable_manual hk htype hdata haccounted (.inl ⟨rfl, rfl⟩)
      rw [show s.alg.enable cfg [] = .ok a from ha] at hs
      cases hs
      exact h.ends hk (hends _ rfl h.failed rfl hr)
  · cases hs

/-- A rollback that does something. -/
theorem TrackInv.rollback_ends (hk : s.compactions i = some k)
    (hdata : k.compactData.getD [] ≠ []) (haccounted : s.accounted (.rollback i))
    (hs : s.rollback cfg i = some s') : Ends cfg s i k .sealed s' ∧ s'.alg.status ≠ .disable ∧
      ∀ id, id ∈ s'.alg.held ↔ id ∈ k.takenOut ∨ id ∈ s.alg.held := by
  dsimp only [Table.accounted] at haccounted
  unfold Table.rollback at hs
  rw [hk] at hs haccounted
  rw [all_some] at haccounted
  dsimp only at hs
  rw [if_neg hdata] at hs
  split at hs
  · cases hs
  have hr := replaced_modifyAll s k.olds .sealed
  cases htype : k.type with
  | auto =>
    rw [htype] at hs
    obtain ⟨n, htxn, hrunning⟩ := h.auto_list hk htype
    obtain ⟨ids, a, ha, hf⟩ := h.alg.rollbackCompact hrunning htxn
    rw [ha] at hs
    cases hs
    refine ⟨h.ends_auto hk htype hr hf rfl h.failed (.inr ⟨rfl, rfl⟩), hf.status, ?_⟩
    intro id
    rw [← h.finished_ids hk htype hf]
    exact hf.held.mem_iff.trans mem_append
  | manual =>
    rw [htype] at hs haccounted
    obtain ⟨data, hsome⟩ :=
      Option.ne_none_iff_exists'.mp fun hnone => hdata (congrArg (Option.getD · []) hnone)
    have hreturned : s.returned k := by
      rcases Bool.or_eq_true_iff.mp haccounted with hempty | hreturned
      · exact absurd (decide_eq_true_iff.mp hempty) hdata
      · exact hreturned
    obtain ⟨a, ha, henable, hheld, hends⟩ :=
      h.enable_manual hk htype hsome hreturned (.inr ⟨rfl, rfl⟩)
    rw [ha] at hs
    cases hs
    refine ⟨hends _ rfl h.failed rfl hr, henable ▸ nofun, ?_⟩
    intro id
    refine (hheld.mem_iff.trans mem_append).trans ⟨?_, ?_⟩
    · rintro (hid | hid)
      · -- an old segment was taken, and so known when the layers were cleared or added since
        obtain ⟨e, he, hst, hadded⟩ :=
          (h.records i k hk).taken id ((h.records i k hk).olds_subset hid)
        refine ((h.records i k hk).manual htype).2 id e he ?_ hadded
        rcases hst with hst | hst <;> simp [Segment.live, hst]
      · exact .inr hid
    · rintro (hid | hid)
      · have hback := all_eq_true.mp (Bool.and_eq_true_iff.mp hreturned).1 id hid
        rwa [Bool.or_eq_true, decide_eq_true_iff, decide_eq_true_iff] at hback
      · exact .inr hid

/-- A manual compaction that has done nothing is dropped. -/
theorem TrackInv.dropManual (hk : s.compactions i = some k) (htype : k.type = .manual) :
    TrackInv cfg (s.setCompaction i none) := by
  have hget : ∀ j m, (s.setCompaction i none).compactions j = some m →
      s.compactions j = some m := by
    intro j m hm
    rw [compactions_setCompaction] at hm
    split at hm
    · cases hm
    · exact hm
  constructor
  · exact h.failed
  · exact h.alg
  · exact h.places
  · exact h.cover
  · intro j m hm
    obtain ⟨htaken, hauto, hmanual, hunplanned, hplanned, hdata⟩ := h.records j m (hget j m hm)
    exact ⟨htaken, hauto, hmanual, hunplanned, hplanned, hdata⟩
  · intro p hp
    obtain ⟨m, hm, hauto⟩ := h.txns p hp
    refine ⟨m, ?_, hauto⟩
    rw [compactions_setCompaction, if_neg, hm]
    rintro rfl
    cases hk.symm.trans hm
    cases htype.symm.trans hauto
  · exact fun j j' m m' hm hm' => h.manual j j' m m' (hget j m hm) (hget j' m' hm')
  · exact fun j j' m m' hm hm' => h.taken j j' m m' (hget j m hm) (hget j' m' hm')
  · exact h.pending

theorem TrackInv.rollback (haccounted : s.accounted (.rollback i))
    (hs : s.rollback cfg i = some s') : TrackInv cfg s' := by
  cases hk : s.compactions i with
  | none =>
    unfold Table.rollback at hs
    rw [hk] at hs
    cases hs
    exact h
  | some k =>
    by_cases hdata : k.compactData.getD [] = []
    · have htype : k.type = .manual := by
        dsimp only [Table.accounted] at haccounted
        rw [hk, all_some] at haccounted
        cases htype : k.type with
        | manual => rfl
        | auto =>
          rw [htype] at haccounted
          exact absurd hdata (decide_eq_true_iff.mp haccounted)
      unfold Table.rollback at hs
      rw [hk] at hs
      dsimp only at hs
      rw [if_pos hdata] at hs
      cases hs
      exact h.dropManual hk htype
    · exact h.ends hk (h.rollback_ends hk hdata haccounted hs).1

/-! ## Runs -/

/-- Every accounted step keeps the invariant. -/
theorem TrackInv.step {a : Action} (haccounted : s.accounted a)
    (hs : s.step cfg a = some s') : TrackInv cfg s' := by
  unfold Table.step at hs
  rw [if_pos h.failed] at hs
  cases a with
  | setSealed id rowCount => exact h.setSealed hs
  | addSegment id => exact h.addSegment hs
  | registerDelete i id => exact h.registerDelete hs
  | commitDelete i id rows => exact h.commitDelete hs
  | deleteInSegment id => exact h.deleteInSegment hs
  | checkCompaction i chosen => exact h.checkCompaction hs
  | disable i => exact h.disable hs
  | init i blockIndex parallelCount => exact h.init hs
  | trySetCompacting i => exact h.trySetCompacting haccounted hs
  | setNoDelete i id => exact h.setNoDelete hs
  | compact i newIds => exact h.compact hs
  | commit i rowCounts => exact h.commit haccounted hs
  | rollback i => exact h.rollback haccounted hs

end

/-- The system of the runs whose steps are all accounted for. -/
def accountedTracking (cfg : DBTConfig) : TransitionSystem Table Action :=
  (tracking cfg).restrict fun s a => s.accounted a = true

theorem TrackInv.of_reachable (h : (accountedTracking cfg).Reachable s) : TrackInv cfg s := by
  apply h.invariant
  · rintro _ rfl
    exact .start
  · intro s a s' hinv hs
    obtain ⟨haccounted, hs⟩ := TransitionSystem.restrict_step_eq_some.mp hs
    exact hinv.step haccounted hs

theorem TrackInv.tracked (h : TrackInv cfg s) : s.Tracked where
  failed := h.failed
  once hstatus id e he hlive hadded :=
    count_eq_one_of_mem h.alg.nodup (h.cover hstatus id e he hlive hadded)
  owners _ p hp := by
    obtain ⟨q, hq, heq⟩ := mem_map.mp (h.alg.mem_txn2Layer hp)
    obtain ⟨k, hk, -⟩ := h.txns q hq
    unfold Table.running
    rw [← heq, hk]
    rfl
  disjoint _ p hp q hq hne := by
    have hpicked := (nodup_append.mp h.alg.nodup).2.1
    have hpairwise := (nodup_flatMap.mp hpicked).2
    have : Std.Symm (Function.onFun List.Disjoint (Prod.snd : ℕ × List ℕ → List ℕ)) :=
      ⟨fun _ _ hdisjoint _ hx hy => hdisjoint hy hx⟩
    exact hpairwise.forall hp hq fun heq => hne (congrArg Prod.fst heq)
  tasks _ := by
    rw [h.alg.tasks, eq_comm, countP_eq_length]
    intro p hp
    obtain ⟨k, hk, -⟩ := h.txns p hp
    unfold Table.running
    rw [hk]
    rfl

/-- **The algorithm tracks every sealed segment once, in every run whose steps are all accounted
for.** -/
theorem tracked_of_accounted (h : (accountedTracking cfg).Reachable s) : s.Tracked :=
  (TrackInv.of_reachable h).tracked

/-- An automatic compaction of four segments that commits. -/
def accountedRun : List Action :=
  [.setSealed 0 10, .addSegment 0, .setSealed 1 10, .addSegment 1, .setSealed 2 10, .addSegment 2,
    .setSealed 3 10, .addSegment 3, .checkCompaction 1 [0, 1, 2, 3], .init 1 [0, 1, 2, 3] 1,
    .trySetCompacting 1, .trySetCompacting 1, .trySetCompacting 1, .trySetCompacting 1,
    .setNoDelete 1 0, .setNoDelete 1 1, .setNoDelete 1 2, .setNoDelete 1 3, .compact 1 [4],
    .commit 1 [40], .addSegment 4]

theorem tracked_accountedRun : ∃ s, (accountedTracking .default).run .start accountedRun = some s ∧
    s.alg.held = [4] ∧ s.status 0 = some .deprecated ∧ s.Tracked := by
  refine ⟨_, rfl, rfl, rfl, ?_⟩
  have hreachable : (accountedTracking .default).Reachable _ :=
    .of_run accountedRun (.initial rfl) rfl
  exact tracked_of_accounted hreachable

end Infinity.Compaction.Tracking
