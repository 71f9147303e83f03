import Infinity.Compaction.TrackingInvariant

/-! # The steps of the table keep the invariant

One lemma for each action that does not end a compaction.

* `TrackInv.addSegment`, `TrackInv.deleteInSegment`: the algorithm is told of a new segment and of
  deletes.
* `TrackInv.checkCompaction`, `TrackInv.disable`: a compaction takes segments out of the layers.
* `TrackInv.init`, `TrackInv.trySetCompacting`, `TrackInv.setNoDelete`, `TrackInv.compact`: the
  compaction works on what it has taken. -/

namespace Infinity.Compaction.Tracking

open Foundations List

variable {cfg : DBTConfig} {s s' : Table} {i j id n : ℕ} {k k' : CompactTxn} {blockIndex : List ℕ}
  {a : DBTCompactionAlg}

/-! ## Imports and deletes -/

section

variable (h : TrackInv cfg s)
include h

theorem TrackInv.setSealed (hs : s.setSealed id n = some s') : TrackInv cfg s' := by
  obtain ⟨hnone, hs⟩ := Option.ite_none_right_eq_some.mp hs
  cases hs
  refine h.ofSegments ?_ rfl rfl rfl
  have hget : ∀ j e, Function.update s.segments id (some ⟨.sealed, [], n, n, false⟩) j = some e →
      e = ⟨.sealed, [], n, n, false⟩ ∨ s.segments j = some e := by
    intro j e he
    rw [Function.update_apply] at he
    split at he
    · exact .inl (Option.some.inj he).symm
    · exact .inr he
  constructor
  · intro j e he
    refine ⟨e, (Function.update_of_ne ?_ _ _).trans he, rfl, rfl, le_rfl, fun hst => hst⟩
    rintro rfl
    cases hnone.symm.trans he
  · intro j e he hlive hadded
    rcases hget j e he with rfl | he
    · cases hadded
    · exact ⟨e, he, hlive, hadded⟩
  · intro j e he hadded
    exact (hget j e he).imp (by rintro rfl; rfl) fun he => ⟨e, he, hadded, rfl⟩

theorem TrackInv.registerDelete (hs : s.registerDelete i id = some s') : TrackInv cfg s' := by
  obtain ⟨e, he, hs⟩ := Option.bind_eq_some_iff.mp hs
  obtain ⟨-, hs⟩ := Option.ite_none_left_eq_some.mp hs
  cases hs
  exact h.ofSegments (unseen_modifySegment he rfl rfl le_rfl (fun hst => hst) fun _ => rfl) rfl
    rfl rfl

theorem TrackInv.commitDelete (hs : s.commitDelete i id n = some s') : TrackInv cfg s' := by
  obtain ⟨e, he, hs⟩ := Option.bind_eq_some_iff.mp hs
  obtain ⟨-, hs⟩ := Option.ite_none_right_eq_some.mp hs
  cases hs
  exact h.ofSegments (unseen_modifySegment he rfl rfl (Nat.sub_le _ _) (fun hst => hst) fun _ =>
    rfl) rfl rfl rfl

/-- The algorithm changes, but not which segments are in the layers and in the lists. -/
theorem TrackInv.ofAlg (ha : DBTCompactionAlg.Inv cfg s.actualRowCount a)
    (hheld : a.held.Perm s.alg.held) (hlists : a.pickedLists = s.alg.pickedLists)
    (hstatus : a.status = s.alg.status) (htxn : a.txn2Layer = s.alg.txn2Layer) :
    TrackInv cfg { s with alg := a } := by
  have hpicked : a.picked = s.alg.picked := by
    unfold DBTCompactionAlg.picked
    rw [hlists]
  have hmem : ∀ id, id ∈ a.held ++ a.picked ↔ id ∈ s.alg.held ++ s.alg.picked := by
    intro id
    rw [hpicked, mem_append, mem_append, hheld.mem_iff]
  refine { h with
    alg := ha
    places := fun id hid => h.places id ((hmem id).mp hid)
    cover := fun hst id e he hlive hadded =>
      (hmem id).mpr (h.cover (hstatus ▸ hst) id e he hlive hadded)
    records := fun i k hk => (h.records i k hk).transfer ?_ ?_ ?_
    txns := fun p hp => h.txns p (htxn ▸ hp) }
  · exact fun id _ e he hst hadded => ⟨e, he, hst, hadded⟩
  · exact fun _ hin => hlists.symm ▸ hin
  · exact fun _ hdisable => ⟨hstatus.trans hdisable, fun id e he hlive hadded =>
      .inl ⟨⟨e, he, hlive, hadded⟩, hheld.mem_iff.mpr⟩⟩

theorem TrackInv.deleteInSegment (hs : s.deleteInSegment cfg id = some s') : TrackInv cfg s' := by
  unfold Table.deleteInSegment at hs
  obtain ⟨a, ha, hinv, hheld, hlists, hstatus, htxn⟩ := h.alg.deleteInSegment id
  rw [ha] at hs
  cases hs
  exact h.ofAlg hinv hheld hlists hstatus htxn

/-- **A segment that was sealed is passed to the algorithm.** -/
theorem TrackInv.addSegment (hs : s.addSegment cfg id = some s') : TrackInv cfg s' := by
  obtain ⟨e, he, hs⟩ := Option.bind_eq_some_iff.mp hs
  obtain ⟨hadded, hs⟩ := Option.ite_none_left_eq_some.mp hs
  rw [Bool.not_eq_true] at hadded
  have hsealed := h.pending id e he hadded
  have hnew : id ∉ s.alg.held ++ s.alg.picked := by
    intro hin
    obtain ⟨e', he', -, hadded'⟩ := h.places id hin
    cases he.symm.trans he'
    cases hadded.symm.trans hadded'
  have hrows : s.actualRowCount id = e.actualRowCount := by
    unfold Table.actualRowCount
    rw [he]
    rfl
  obtain ⟨a, ha, hgrown⟩ := h.alg.addSegmentInner hnew
  rw [hrows] at ha
  rw [ha] at hs
  cases hs
  have hget : ∀ j, (s.modifySegment id ({ · with added := true })).segments j =
      if j = id then some { e with added := true } else s.segments j :=
    fun j => segments_modifySegment he
  have hmem : ∀ j, j ∈ a.held ++ a.picked ↔ j = id ∨ j ∈ s.alg.held ++ s.alg.picked := by
    intro j
    rw [hgrown.picked, mem_append, hgrown.held.mem_iff]
    simp [or_assoc]
  -- what is passed to the algorithm was sealed or had been passed before
  have hbefore : ∀ {j e'}, (s.modifySegment id ({ · with added := true })).segments j = some e' →
      j = id ∧ e' = { e with added := true } ∨ s.segments j = some e' := by
    intro j e' he'
    rw [hget] at he'
    split at he'
    next hj => exact .inl ⟨hj, (Option.some.inj he').symm⟩
    · exact .inr he'
  refine { h with
    alg := hgrown.inv.shrink fun j _ => ?_
    places := fun j hj => ?_
    cover := fun hst j e' he' hlive' hadded' => (hmem j).mpr ?_
    records := fun i k hk =>
      (h.records i k hk).transfer ?_ (fun _ hin => hgrown.pickedLists.symm ▸ hin)
      fun _ hdisable => ⟨hgrown.status.trans hdisable, fun j e' he' hlive' hadded' => ?_⟩
    txns := fun p hp => h.txns p (hgrown.txn2Layer ▸ hp)
    pending := fun j e' he' hadded' => ?_ }
  · show (((s.modifySegment id _).segments j).map _).getD 0 ≤ _
    rw [hget]
    unfold Table.actualRowCount
    split
    next hj => rw [hj, he]; exact le_rfl
    · exact le_rfl
  · show ∃ e', (s.modifySegment id _).segments j = some e' ∧ _
    rw [hget]
    split
    next hjd =>
      refine ⟨_, rfl, ?_, rfl⟩
      rw [hsealed]
      rfl
    next hjd => exact h.places j (((hmem j).mp hj).resolve_left hjd)
  · exact (hbefore he').imp And.left fun he' =>
      h.cover (hgrown.status ▸ hst) j e' he' hlive' hadded'
  · intro j _ e' he' hst' hadded'
    show ∃ e'', (s.modifySegment id _).segments j = some e'' ∧ _
    rw [hget]
    split
    next hj =>
      subst hj
      cases he.symm.trans he'
      exact ⟨_, rfl, hst', rfl⟩
    · exact ⟨e', he', hst', hadded'⟩
  · rcases hbefore he' with ⟨hj, -⟩ | he'
    · exact .inr (hgrown.held.mem_iff.mpr (by simp [hj]))
    · exact .inl ⟨⟨e', he', hlive', hadded'⟩, fun hin =>
        hgrown.held.mem_iff.mpr (mem_append_right _ hin)⟩
  · rcases hbefore he' with ⟨-, rfl⟩ | he'
    · cases hadded'
    · exact h.pending j e' he' hadded'

end

/-! ## A compaction begins -/

section

variable (h : TrackInv cfg s)
include h

/-- A transaction becomes a compaction, which takes segments out of the layers. -/
theorem TrackInv.begins (hnone : s.compactions i = none)
    (ha : DBTCompactionAlg.Inv cfg s.actualRowCount a)
    (hplaces : a.held ++ a.picked ⊆ s.alg.held ++ s.alg.picked)
    (hcover : a.status ≠ .disable → s.alg.status ≠ .disable ∧ s.alg.held ++ s.alg.picked ⊆ a.held ++
    a.picked) (htxn : ∀ p ∈ a.txn2Layer, p ∈ s.alg.txn2Layer ∨ p.1 = i ∧ k.type = .auto)
    (hok : RecordOk { s with alg := a } i k) (htaken : k.taken = [])
    (hrecords : ∀ j m, s.compactions j = some m → RecordOk { s with alg := a } j m ∧
      (k.type = .manual → m.type ≠ .manual)) :
    TrackInv cfg { s.setCompaction i (some k) with alg := a } := by
  refine { h with
    alg := ha
    places := fun id hid => h.places id (hplaces hid)
    cover := fun hst id e he hlive hadded =>
      (hcover hst).2 (h.cover (hcover hst).1 id e he hlive hadded)
    records := fun j m hm => ?_
    txns := fun p hp => ?_
    manual := fun j j' m m' hm hm' hmanual hmanual' => ?_
    taken := fun j j' m m' hm hm' id hid hid' => ?_ }
  · rcases records_cases hm with ⟨rfl, rfl⟩ | ⟨-, hm⟩
    · exact { hok with }
    · exact { (hrecords j m hm).1 with }
  · rcases htxn p hp with hp | ⟨hp, hauto⟩
    · obtain ⟨m, hm, hauto⟩ := h.txns p hp
      refine ⟨m, compactions_setCompaction.trans ((if_neg ?_).trans hm), hauto⟩
      rintro rfl
      cases hnone.symm.trans hm
    · exact ⟨k, compactions_setCompaction.trans (if_pos hp), hauto⟩
  · rcases records_cases hm with ⟨hj, rfl⟩ | ⟨-, hm⟩ <;>
      rcases records_cases hm' with ⟨hj', hk⟩ | ⟨-, hm'⟩
    · exact hj.trans hj'.symm
    · exact absurd hmanual' ((hrecords j' m' hm').2 hmanual)
    · exact absurd hmanual ((hrecords j m hm).2 (hk ▸ hmanual'))
    · exact h.manual j j' m m' hm hm' hmanual hmanual'
  · rcases records_cases hm with ⟨-, rfl⟩ | ⟨-, hm⟩
    · simp [htaken] at hid
    rcases records_cases hm' with ⟨-, rfl⟩ | ⟨-, hm'⟩
    · simp [htaken] at hid'
    · exact h.taken j j' m m' hm hm' id hid hid'

/-- The layer in which an automatic compaction has its list. -/
theorem TrackInv.auto_list (hk : s.compactions i = some k) (htype : k.type = .auto) :
    ∃ n, (i, n) ∈ s.alg.txn2Layer ∧ s.alg.status = .running := by
  have hlist := ((h.records i k hk).auto htype).1
  obtain ⟨p, hp, hpi⟩ := mem_map.mp (h.alg.mem_txn2Layer hlist)
  have hpair : p = (i, p.2) := Prod.ext hpi rfl
  exact ⟨p.2, hpair ▸ hp, h.alg.running_of_picked hlist⟩

/-- No automatic compaction runs while the algorithm is not running. -/
theorem TrackInv.no_auto (hstatus : s.alg.status ≠ .running) (hk : s.compactions i = some k) :
    k.type = .manual := by
  cases htype : k.type with
  | manual => rfl
  | auto =>
    obtain ⟨n, -, hrunning⟩ := h.auto_list hk htype
    exact absurd hrunning hstatus

theorem TrackInv.disable (hs : s.disable i = some s') : TrackInv cfg s' := by
  obtain ⟨⟨hnone, hstatus⟩, hs⟩ := Option.ite_none_right_eq_some.mp hs
  cases hs
  obtain ⟨hinv, hlists, htxn⟩ := h.alg.disable hstatus
  have hpicked : s.alg.picked = [] := by
    unfold DBTCompactionAlg.picked
    rw [hlists]
    rfl
  -- no other compaction runs
  have hno : ∀ j m, s.compactions j ≠ some m := by
    intro j m hm
    have htype := h.no_auto (by rw [hstatus]; exact nofun) hm
    have hdisable := ((h.records j m hm).manual htype).1
    cases hstatus.symm.trans hdisable
  refine h.begins hnone hinv nofun (fun hne => absurd rfl hne) (fun p hp => .inl hp) ?_ rfl
    fun j m hm => absurd hm (hno j m)
  refine ⟨nofun, nofun, fun _ => ⟨rfl, fun id e he hlive hadded => .inl ?_⟩, fun _ =>
    ⟨rfl, rfl, rfl⟩, nofun, nofun⟩
  have hin := h.cover (by rw [hstatus]; exact nofun) id e he hlive hadded
  rwa [hpicked, append_nil] at hin

theorem TrackInv.checkCompaction {chosen : List ℕ}
    (hs : s.checkCompaction cfg i chosen = some s') : TrackInv cfg s' := by
  obtain ⟨⟨hnone, hnodup, hlength, hsub⟩, hs⟩ := Option.ite_none_right_eq_some.mp hs
  have hne : chosen ≠ [] := by
    rintro rfl
    have hpos := cfg.m_pos
    rw [← hlength] at hpos
    cases hpos
  have hkept : s.alg.checkCompaction cfg i chosen = .ok (s.alg, []) → TrackInv cfg s' := by
    intro hres
    rw [hres] at hs
    cases hs
    exact h
  by_cases hstatus : s.alg.status = .disable
  · exact hkept (if_pos hstatus)
  cases hfull : s.alg.fullLayer cfg s.alg.segmentLayers.length with
  | none => exact hkept (by rw [DBTCompactionAlg.checkCompaction, if_neg hstatus, hfull])
  | some n =>
    have hfresh : i ∉ s.alg.txn2Layer.map Prod.fst := by
      intro hin
      obtain ⟨p, hp, rfl⟩ := mem_map.mp hin
      obtain ⟨m, hm, -⟩ := h.txns p hp
      cases hnone.symm.trans hm
    obtain ⟨a, ha, hinv, hheld, hlists, hrunning, htxn⟩ :=
      h.alg.checkCompaction hstatus hfull hfresh hnodup (hsub n hfull)
    rw [ha] at hs
    have hs : some { s.setCompaction i (some ⟨.auto, chosen, none, [], [], none⟩) with alg := a } =
        some s' := by
      cases chosen with
      | nil => exact absurd rfl hne
      | cons c chosen => exact hs
    cases hs
    have hpicked : a.picked.Perm (chosen ++ s.alg.picked) := by
      have hflat := hlists.flatMap_right Prod.snd
      show (List.flatMap Prod.snd _).Perm (chosen ++ List.flatMap Prod.snd _)
      simpa using hflat
    have hmem : ∀ id, id ∈ a.held ++ a.picked ↔ id ∈ s.alg.held ++ s.alg.picked := by
      intro id
      rw [mem_append, mem_append, hpicked.mem_iff, hheld.mem_iff, mem_append, mem_append]
      tauto
    refine h.begins hnone hinv (fun id => (hmem id).mp) (fun _ =>
      ⟨hstatus, fun id => (hmem id).mpr⟩)
      (fun p hp => ?_) ⟨nofun, ?_, nofun, fun _ => ⟨rfl, rfl, rfl⟩, nofun, nofun⟩ rfl
      fun j m hm => ⟨(h.records j m hm).transfer ?_ ?_ ?_, nofun⟩
    · rw [htxn] at hp
      rcases mem_cons.mp hp with rfl | hp
      · exact .inr ⟨rfl, rfl⟩
      · exact .inl hp
    · exact fun _ => ⟨hlists.mem_iff.mpr mem_cons_self, fun id hid =>
        hid.elim (fun h => nomatch h) (fun h => nomatch h)⟩
    · exact fun id _ e he hst hadded => ⟨e, he, hst, hadded⟩
    · exact fun _ hin => hlists.mem_iff.mpr (mem_cons_of_mem _ hin)
    · exact fun _ hdisable => absurd hdisable hstatus

end

/-! ## A compaction takes its segments -/

/-- The groups of a compaction have each of its segments at most once. -/
theorem nodup_manualGroups (hnodup : blockIndex.Nodup) :
    (s.manualGroups blockIndex).flatten.Nodup := by
  have hids : (s.sealedOf blockIndex).Nodup := hnodup.filter _
  have hsub := generate_subperm defaultSegmentCapacity
    (fun id => (s.segments id).any fun e => e.actualRowCount = e.rowCount)
    (((s.sealedOf blockIndex).map fun id => (s.actualRowCount id, id)).length + 1)
    (((s.sealedOf blockIndex).map fun id => (s.actualRowCount id, id)).insertionSort fun a b =>
    a.1 ≤ b.1)
  have hperm := (perm_insertionSort (fun a b : ℕ × ℕ => a.1 ≤ b.1)
    ((s.sealedOf blockIndex).map fun id => (s.actualRowCount id, id))).map Prod.snd
  rw [map_map] at hperm
  have hself : (s.sealedOf blockIndex).map (Prod.snd ∘ fun id => (s.actualRowCount id, id)) =
      s.sealedOf blockIndex := map_id _
  rw [hself] at hperm
  obtain ⟨l, hl, hsublist⟩ := hsub
  exact hl.nodup_iff.mp (hsublist.nodup (hperm.nodup_iff.mpr hids))

section

variable (h : TrackInv cfg s)
include h

theorem TrackInv.init
    (hs : s.init i blockIndex n = some s') : TrackInv cfg s' := by
  obtain ⟨k, hk, hs⟩ := Option.bind_eq_some_iff.mp hs
  obtain ⟨⟨hgroups, hnodup, hauto⟩, hs⟩ := Option.ite_none_right_eq_some.mp hs
  have hok := h.records i k hk
  obtain ⟨htaken, -, hdata⟩ := hok.unplanned hgroups
  obtain ⟨groups, hflat, hin, heq⟩ : ∃ groups : List (List ℕ), groups.flatten.Nodup ∧
      (k.type = .auto → ∀ id ∈ groups.flatten, id ∈ k.takenOut) ∧
      s' = s.setCompaction i (some { k with
        groups := some (groups.take n), left := (groups.take n).flatten }) := by
    cases htype : k.type with
    | auto =>
      rw [htype] at hs
      refine ⟨[s.sealedOf blockIndex], ?_, fun _ id hid => ?_, (Option.some.inj hs).symm⟩
      · rw [flatten_singleton]
        exact hnodup.filter _
      · rw [flatten_singleton] at hid
        exact hauto htype id (mem_of_mem_filter hid)
    | manual =>
      rw [htype] at hs
      exact ⟨s.manualGroups blockIndex, nodup_manualGroups hnodup, nofun, (Option.some.inj hs).symm⟩
  subst heq
  refine h.setRecord hk rfl ?_ (fun id hid => .inl hid)
  have hsub := (take_sublist n groups).flatten
  constructor
  · exact hok.taken
  · refine fun htype => ⟨(hok.auto htype).1, fun id hid => ?_⟩
    rcases hid with hid | hid
    · exact (hok.auto htype).2 id (.inl hid)
    · exact hin htype id (hsub.subset hid)
  · exact hok.manual
  · exact nofun
  · rintro _ ⟨⟩
    refine ⟨hsub.nodup hflat, fun id hid => ?_⟩
    rcases hid with hid | hid
    · rw [htaken] at hid
      cases hid
    · exact hid
  · intro data hdata'
    cases hdata.symm.trans hdata'

theorem TrackInv.trySetCompacting (haccounted : s.accounted (.trySetCompacting i))
    (hs : s.trySetCompacting i = some s') : TrackInv cfg s' := by
  obtain ⟨k, hk, hs⟩ := Option.bind_eq_some_iff.mp hs
  have hok := h.records i k hk
  split at hs
  · cases hs
  next id left hleft =>
    have hdata : k.compactData = none := by
      cases hdata : k.compactData with
      | none => rfl
      | some data =>
        obtain ⟨-, -, -, -, hnil, -⟩ := hok.data data hdata
        cases hleft.symm.trans hnil
    have hgroups : k.groups ≠ none := by
      intro hnone
      obtain ⟨-, hnil, -⟩ := hok.unplanned hnone
      cases hleft.symm.trans hnil
    -- whatever happens to the candidate, the rest of the record stays as it is
    have hrecord : ∀ (t : Table) (taken : List ℕ), RecordOk t i k → t.alg = s.alg →
        (∀ id' ∈ taken, id' ∈ k.taken ∨ id' = id) → (∀ id' ∈ taken, ∃ e, t.segments id' = some e ∧
          (e.status = .compacting ∨ e.status = .noDelete) ∧ e.added) →
        RecordOk t i { k with left := left, taken := taken } := by
      intro t taken ht halg hsub htaken
      have hcand : ∀ id', id' ∈ taken ∨ id' ∈ left → id' ∈ k.taken ∨ id' ∈ k.left := by
        intro id' hid'
        rw [hleft]
        rcases hid' with hid' | hid'
        · rcases hsub id' hid' with hin | rfl
          · exact .inl hin
          · exact .inr mem_cons_self
        · exact .inr (mem_cons_of_mem _ hid')
      constructor
      · exact htaken
      · exact fun htype =>
          ⟨(ht.auto htype).1, fun id' hid' => (ht.auto htype).2 id' (hcand id' hid')⟩
      · exact ht.manual
      · exact fun hnone => absurd hnone hgroups
      · exact fun groups hgr => ⟨(ht.planned groups hgr).1,
          fun id' hid' => (ht.planned groups hgr).2 id' (hcand id' hid')⟩
      · intro data hdata'
        cases hdata.symm.trans hdata'
    split at hs
    next hsealed =>
      cases hs
      obtain ⟨e, he, hst⟩ := Option.map_eq_some_iff.mp hsealed
      have hadded : e.added := by
        dsimp only [Table.accounted] at haccounted
        rw [hk, Option.all_some, hleft, head?_cons, Option.all_some, he, Option.all_some]
          at haccounted
        exact haccounted
      have hunseen : Unseen s (s.modifySegment id ({ · with status := .compacting })) := by
        apply unseen_modifySegment he
        · unfold Segment.live
          rw [hst]
          rfl
        · rfl
        · exact le_rfl
        · exact fun _ => .inl rfl
        · intro hnot
          cases hadded.symm.trans hnot
      have hinv := h.ofSegments hunseen rfl rfl rfl
      refine hinv.setRecord hk rfl ?_ ?_
      · apply hrecord _ _ (hok.ofSegments hunseen rfl) rfl
        · intro id' hid'
          rcases mem_cons.mp hid' with rfl | hid'
          · exact .inr rfl
          · exact .inl hid'
        · intro id' hid'
          rcases mem_cons.mp hid' with rfl | hid'
          · exact ⟨_, (segments_modifySegment he).trans (if_pos rfl), .inl rfl, hadded⟩
          · exact (hok.ofSegments hunseen rfl).taken id' hid'
      · intro id' hid'
        rcases mem_cons.mp hid' with rfl | hid'
        · -- no other compaction has taken a segment that was sealed
          refine .inr fun j m hm hin => ?_
          obtain ⟨e', he', hst', -⟩ := (h.records j m hm).taken id' hin
          cases he.symm.trans he'
          rw [hst] at hst'
          rcases hst' with hst' | hst' <;> cases hst'
        · exact .inl hid'
    · cases hs
      exact h.setRecord hk rfl (hrecord s k.taken hok rfl (fun _ hid => .inl hid) hok.taken)
        fun _ hid => .inl hid

theorem TrackInv.setNoDelete (hs : s.setNoDelete i id = some s') : TrackInv cfg s' := by
  obtain ⟨k, hk, hs⟩ := Option.bind_eq_some_iff.mp hs
  obtain ⟨⟨-, -, htaken, -⟩, hs⟩ := Option.ite_none_right_eq_some.mp hs
  cases hs
  obtain ⟨e, he, hst, hadded⟩ := (h.records i k hk).taken id htaken
  refine h.ofSegments (unseen_modifySegment he ?_ rfl le_rfl (fun _ => .inr rfl) ?_) rfl rfl rfl
  · unfold Segment.live
    rcases hst with hst | hst
    · rw [hst]
      rfl
    · rw [hst]
  · intro hnot
    cases hadded.symm.trans hnot

theorem TrackInv.compact {newIds : List ℕ} (hs : s.compact i newIds = some s') :
    TrackInv cfg s' := by
  obtain ⟨k, hk, hs⟩ := Option.bind_eq_some_iff.mp hs
  obtain ⟨groups, hgroups, hs⟩ := Option.bind_eq_some_iff.mp hs
  obtain ⟨⟨hleft, -, hlength, -⟩, hs⟩ := Option.ite_none_right_eq_some.mp hs
  cases hs
  have hok := h.records i k hk
  refine h.setRecord hk rfl ?_ fun _ hid => .inl hid
  constructor
  · exact hok.taken
  · exact hok.auto
  · exact hok.manual
  · exact fun hnone => nomatch hgroups.symm.trans hnone
  · exact hok.planned
  · rintro _ ⟨⟩
    exact ⟨groups, newIds, hgroups, hlength, hleft, rfl⟩

end

end Infinity.Compaction.Tracking
