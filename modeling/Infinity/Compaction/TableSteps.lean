import Infinity.Compaction.TableInvariant

/-! # The actions on a table keep its invariant

* `Inv.commitBottom`, `Inv.rollbackCompact`, `Inv.compact`: the actions that concern a
compaction. -/

namespace Infinity.Compaction

open Foundations Transactions List Option Table

section Commit

variable {s : Table} {mgr' : TxnManager} {i : ℕ} {t t' : Txn}

/-- **The bottom half of a commit** sets the time stamps of both sides of a compaction at once. -/
theorem Inv.commitBottom (h : Inv s) (hlife : Life mgr')
    (hm : Moved s.mgr .commitBottom mgr' i t t') (hsent : t.stage = .sent)
    (hbottomed : t'.stage = .bottomed) :
    Inv { s with segmentMap := s.commitWrite i t.commitTs, mgr := mgr' } := by
  have ht := hm.txn
  have hopen : ¬ t.Applied := by simp [Txn.Applied, hsent]
  have hcommits : t.Commits := by simp [Txn.Commits, hsent]
  have happlied : t'.Applied := .inl hbottomed
  have hts : t'.commitTs = t.commitTs := hm.stamp_eq hcommits
  have hlt : t.beginTs < t.commitTs := ((h.life.txn _ _ ht).stamp_le _ hcommits.stamp_eq).1
  have hself : mgr'.txns i = some t' := by rw [hm.txns, setTxn_self]
  have hkeep : KeepsApplied s.mgr mgr' :=
    keepsApplied_of_changed hm.txns ht fun ha => absurd ha hopen
  refine ⟨hlife, ?_, ?_, ?_, h.disjoint, h.added_lt, ?_⟩
  · intro id e' he'
    obtain ⟨e, he, -⟩ := map_eq_some_iff.mp he'
    exact h.ids id e he
  · exact fun id e' he' => h.commitWrite_segment ht hopen hlt hself happlied hts hkeep he'
  · intro k p hp
    replace hp : p ∈ s.compactData k := hp
    obtain ⟨u, hu, hdecided, hpair⟩ := h.pair k p hp
    obtain ⟨e, he, hn⟩ := hpair.new
    by_cases hk : k = i
    · -- the compaction that commits
      subst hk
      cases ht.symm.trans hu
      have hnone := hn.pending hopen
      refine ⟨t', hself, .inr happlied, ⟨e.commitSegment t.commitTs true, ?_, hn.txnId, fun _ => ?_,
        fun hp => absurd happlied hp⟩, ?_, hpair.added⟩
      · change s.commitWrite k t.commitTs p.1 = _
        rw [commitWrite, he, map_some, if_neg (h.not_old ht he hnone), if_pos hpair.added]
      · rw [hts]
        simp [SegmentEntry.commitSegment, hnone]
      · intro id hid
        obtain ⟨e₀, he₀, hold⟩ := hpair.old id hid
        obtain ⟨c, hc, hle⟩ := hold.committed
        refine ⟨e₀.setDeprecated t.commitTs, ?_, ⟨c, hc, ?_⟩, fun _ => ⟨rfl, ?_⟩, fun hp =>
          absurd happlied hp⟩
        · change s.commitWrite k t.commitTs id = _
          rw [h.commitWrite_committed ht hopen he₀ hc, if_pos (mem_olds.mpr ⟨p, hp, hid⟩)]
        · rw [hm.begin_eq]
          exact hle
        · rw [hts]
          rfl
    · -- another one
      refine ⟨u, (hm.other hk).trans hu, hdecided, ?_, ?_, hpair.added⟩
      · by_cases hua : u.Applied
        · have hc := hn.applied hua
          refine ⟨_, h.commitWrite_committed ht hopen he hc t.commitTs, ?_⟩
          split
          · exact ⟨hn.txnId, fun _ => hc, fun hp => absurd hua hp⟩
          · exact hn
        · have hnone := hn.pending hua
          refine ⟨e, ?_, hn⟩
          have hadded : ∀ b, (p.1, b) ∉ s.added i := fun b hmem =>
            hk (hn.txnId.symm.trans (h.added_txn i _ hmem e he))
          change s.commitWrite i t.commitTs p.1 = _
          rw [commitWrite, he, map_some, if_neg (h.not_old ht he hnone), if_neg (hadded true),
            if_neg (hadded false)]
      · intro id hid
        obtain ⟨e₀, he₀, hold⟩ := hpair.old id hid
        obtain ⟨c, hc, hle⟩ := hold.committed
        refine ⟨e₀, ?_, hold⟩
        change s.commitWrite i t.commitTs id = _
        rw [h.commitWrite_committed ht hopen he₀ hc,
          if_neg (h.disjoint k i id hk (mem_olds.mpr ⟨p, hp, hid⟩))]
  · intro k a ha e' he'
    obtain ⟨e, he, heq⟩ := map_eq_some_iff.mp he'
    have htxn : e'.txnId = e.txnId := by
      rw [← heq]
      split
      · rfl
      · split
        · rfl
        · split <;> rfl
    rw [htxn]
    exact h.added_txn k a ha e he

end Commit

/-! ## Rollback -/

section Rollback

variable {s : Table} {mgr' : TxnManager} {a : Action} {i : ℕ} {t t' : Txn}

/-- **The rollback of a compaction** removes the new segments and gives the old ones back. -/
theorem Inv.rollbackCompact (h : Inv s) (hlife : Life mgr') (hm : Moved s.mgr a mgr' i t t')
    (hopen : ¬ t.Applied) : Inv { s.rollbackCompact i with mgr := mgr' } := by
  have ht := hm.txn
  have hkeep : KeepsApplied s.mgr mgr' :=
    keepsApplied_of_changed hm.txns ht fun ha => absurd ha hopen
  -- a segment that is left, before the rollback
  have hbefore : ∀ {id e'}, (s.rollbackCompact i).segmentMap id = some e' →
      ∃ e, s.segmentMap id = some e ∧ id ∉ s.news i ∧
        (id ∈ s.olds i ∧ e' = e.rollbackCompact ∨ id ∉ s.olds i ∧ e' = e) := by
    intro id e' he'
    simp only [Table.rollbackCompact] at he'
    split at he'
    · cases he'
    next hnews =>
      split at he'
      next holds =>
        obtain ⟨e, he, rfl⟩ := map_eq_some_iff.mp he'
        exact ⟨e, he, hnews, .inl ⟨holds, rfl⟩⟩
      next holds => exact ⟨e', he', hnews, .inr ⟨holds, rfl⟩⟩
  have hnew : ∀ {id e c}, s.segmentMap id = some e → e.commitTs = some c → id ∉ s.news i := by
    intro id e c he hc hmem
    cases ((h.new ht he hmem).pending hopen).symm.trans hc
  have hdata : ∀ {k}, k ≠ i → (s.rollbackCompact i).compactData k = s.compactData k :=
    fun hk => if_neg hk
  have hself : (s.rollbackCompact i).compactData i = [] := if_pos rfl
  have holds : ∀ {k id}, id ∈ (s.rollbackCompact i).olds k → k ≠ i ∧ id ∈ s.olds k := by
    intro k id hid
    by_cases hk : k = i
    · rw [hk, olds, hself] at hid
      cases hid
    · rw [olds, hdata hk] at hid
      exact ⟨hk, hid⟩
  refine ⟨hlife, ?_, ?_, ?_, ?_, h.added_lt, ?_⟩
  · intro id e' he'
    obtain ⟨e, he, -⟩ := hbefore he'
    exact h.ids id e he
  · intro id e' he'
    obtain ⟨e, he, -, ⟨hmem, rfl⟩ | ⟨-, rfl⟩⟩ := hbefore he'
    · have hok := (h.segment id e he).keep hkeep
      obtain ⟨c, hc, -⟩ := (h.old ht he hmem).committed
      exact ⟨hok.committed,
        fun _ => by simp [SegmentEntry.rollbackCompact, hc], fun _ => rfl, nofun⟩
    · exact (h.segment id e' he).keep hkeep
  · intro k p hp
    have hk : k ≠ i := by
      rintro rfl
      rw [show (s.rollbackCompact k).compactData k = [] from hself] at hp
      cases hp
    rw [show (s.rollbackCompact i).compactData k = s.compactData k from hdata hk] at hp
    obtain ⟨u, hu, hdecided, hpair⟩ := h.pair k p hp
    refine ⟨u, (hm.other hk).trans hu, hdecided, ?_, ?_, hpair.added⟩
    · obtain ⟨e, he, hn⟩ := hpair.new
      have hnot : p.1 ∉ s.news i := fun hmem => hk (hn.txnId.symm.trans (h.new ht he hmem).txnId)
      change ∃ e, (if p.1 ∈ s.news i then none else _) = some e ∧ _
      rw [if_neg hnot]
      split
      · exact ⟨e.rollbackCompact, by rw [he]; rfl, hn.txnId, hn.applied, hn.pending⟩
      · exact ⟨e, he, hn⟩
    · intro id hid
      obtain ⟨e, he, hold⟩ := hpair.old id hid
      obtain ⟨c, hc, -⟩ := hold.committed
      have hmem : id ∈ s.olds k := mem_olds.mpr ⟨p, hp, hid⟩
      refine ⟨e, ?_, hold⟩
      change (if id ∈ s.news i then none else if id ∈ s.olds i then _ else s.segmentMap id) = some e
      rw [if_neg (hnew he hc), if_neg (h.disjoint k i id hk hmem)]
      exact he
  · intro k l id hkl hid hid'
    exact h.disjoint k l id hkl (holds hid).2 (holds hid').2
  · intro k b hb e' he'
    obtain ⟨e, he, -, ⟨-, rfl⟩ | ⟨-, rfl⟩⟩ := hbefore he'
    · exact h.added_txn k b hb e he
    · exact h.added_txn k b hb e' he

end Rollback

/-! ## New segments -/

section Add

variable {s : Table} {i : ℕ} {t : Txn}

theorem newSegmentEntry_ok (mgr : TxnManager) : SegmentOk mgr (.newSegmentEntry i) := by
  refine ⟨nofun, fun h => absurd rfl h, fun _ => rfl, nofun⟩

/-- What is to be shown where a transaction adds segments and others change their status. -/
theorem Inv.extend (h : Inv s) {s' : Table} (new : List (ℕ × Bool))
    (status : ℕ → SegmentEntry → SegmentStatus)
    (hmgr : s'.mgr = s.mgr) (hnext : s.nextSegmentId ≤ s'.nextSegmentId)
      (hmap : ∀ id, s'.segmentMap id = if s.nextSegmentId ≤ id ∧
      id < s'.nextSegmentId then some (.newSegmentEntry i)
      else (s.segmentMap id).map fun e => { e with status := status id e })
    (hstatus : ∀ id e, s.segmentMap id = some e → status id e = e.status ∨
      e.commitTs.isSome ∧ (e.status = .sealed ∨ e.status = .unsealed))
    (hadded : ∀ k, s'.added k = if k = i then s.added i ++ new else s.added k)
    (hnew : ∀ a ∈ new, s.nextSegmentId ≤ a.1 ∧ a.1 < s'.nextSegmentId)
    (hpair : ∀ k, ∀ p ∈ s'.compactData k, p ∈ s.compactData k ∨
      ∃ t, s.mgr.txns k = some t ∧ Undecided t ∧ PairOk s' k t p)
    (hdisjoint : ∀ k l id, k ≠ l → id ∈ s'.olds k → id ∉ s'.olds l) : Inv s' := by
  have hkept : ∀ id e, s.segmentMap id = some e →
      s'.segmentMap id = some { e with status := status id e } := by
    intro id e he
    have hlt := h.ids id e he
    rw [hmap, if_neg (by omega), he, map_some]
  have hsegment : ∀ id e', s'.segmentMap id = some e' →
      s.nextSegmentId ≤ id ∧ id < s'.nextSegmentId ∧ e' = .newSegmentEntry i ∨
        ∃ e, s.segmentMap id = some e ∧ { e with status := status id e } = e' := by
    intro id e' he'
    rw [hmap] at he'
    split at he'
    next hrange => exact .inl ⟨hrange.1, hrange.2, (Option.some.inj he').symm⟩
    · exact .inr (map_eq_some_iff.mp he')
  have hadd : ∀ k, ∀ a ∈ s'.added k, a ∈ s.added k ∨ k = i ∧ a ∈ new := by
    intro k a ha
    rw [hadded] at ha
    split at ha
    next hk => exact (mem_append.mp ha).imp (hk ▸ id) fun ha => ⟨hk, ha⟩
    · exact .inl ha
  refine ⟨hmgr ▸ h.life, fun id e' he' => ?_, fun id e' he' => ?_, fun k p hp => ?_, hdisjoint,
    fun k a ha => ?_, fun k a ha e' he' => ?_⟩
  · obtain ⟨-, hlt, -⟩ | ⟨e, he, -⟩ := hsegment id e' he'
    · exact hlt
    · exact (h.ids id e he).trans_le hnext
  · rw [hmgr]
    obtain ⟨-, -, rfl⟩ | ⟨e, he, rfl⟩ := hsegment id e' he'
    · exact newSegmentEntry_ok _
    · have hok := h.segment id e he
      obtain hsame | ⟨hsome, hopen⟩ := hstatus id e he
      · rwa [hsame]
      · have hdep := hok.undeprecated (by rcases hopen with h | h <;> simp [h])
        exact ⟨hok.committed, fun _ => hsome, fun _ => hdep, hok.lt⟩
  · rw [hmgr]
    rcases hpair k p hp with hp | ⟨t, ht, hopen, hok⟩
    · obtain ⟨t, ht, hdecided, hok⟩ := h.pair k p hp
      refine ⟨t, ht, hdecided, ?_, fun id hid => ?_, ?_⟩
      · obtain ⟨e, he, hn⟩ := hok.new
        exact ⟨_, hkept _ e he, hn.txnId, hn.applied, hn.pending⟩
      · obtain ⟨e, he, ho⟩ := hok.old id hid
        have heq : status id e = e.status := by
          refine (hstatus id e he).resolve_right fun hopen => ?_
          by_cases ha : t.Applied
          · simp [(ho.applied ha).1] at hopen
          · simp [ho.pending ha] at hopen
        exact ⟨_, hkept id e he, ho.committed, fun ha =>
          ⟨heq.trans (ho.applied ha).1, (ho.applied ha).2⟩, fun ha => heq.trans (ho.pending ha)⟩
      · rw [hadded]
        split
        next hk => exact mem_append_left _ (hk ▸ hok.added)
        · exact hok.added
    · exact ⟨t, ht, .inl hopen, hok⟩
  · obtain ha | ⟨-, ha⟩ := hadd k a ha
    · exact (h.added_lt k a ha).trans_le hnext
    · exact (hnew a ha).2
  · obtain ⟨hle, hlt, rfl⟩ | ⟨e, he, rfl⟩ := hsegment _ e' he' <;> obtain ha | ⟨rfl, ha⟩ :=
      hadd k a ha
    · exact absurd (h.added_lt k a ha) hle.not_gt
    · rfl
    · exact h.added_txn k a ha e he
    · exact absurd (h.ids _ e he) (hnew a ha).1.not_gt

theorem Inv.addSegment (h : Inv s) (flushed : Bool) : Inv (s.addSegment i flushed) := by
  refine h.extend [(s.nextSegmentId, flushed)] (fun _ e => e.status) rfl (Nat.le_succ _)
    (fun id => ?_) (fun _ _ _ => .inl rfl) (fun _ => rfl) ?_ (fun k p hp => .inl hp) h.disjoint
  · have hiff : s.nextSegmentId ≤ id ∧ id < s.nextSegmentId + 1 ↔ id = s.nextSegmentId := by omega
    simp only [Table.addSegment, hiff]
    cases s.segmentMap id <;> rfl
  · simp [Table.addSegment]

theorem Inv.setSealed (h : Inv s) {id : ℕ} {e : SegmentEntry} (he : s.segmentMap id = some e)
    (hstatus : e.status = .unsealed) (hcommitted : e.commitTs.isSome) :
    Inv { s with segmentMap := fun j =>
      if j = id then some { e with status := .sealed } else s.segmentMap j } := by
  refine h.extend (i := 0) [] (fun j e => if j = id then .sealed else e.status) rfl le_rfl
    (fun j => ?_) (fun j e' he' => ?_) (fun k => by simp +contextual) nofun (fun k p hp => .inl hp)
    h.disjoint
  · rw [if_neg fun hj => hj.2.not_ge hj.1]
    by_cases hj : j = id <;> simp [hj, he]
  · by_cases hj : j = id
    · subst hj
      cases he.symm.trans he'
      exact .inr ⟨hcommitted, .inr hstatus⟩
    · exact .inl (if_neg hj)

end Add

/-! ## The begin of a compaction -/

section Compact

variable {s : Table} {i : ℕ} {t : Txn} {groups : List (List ℕ)}

theorem mem_groupData : ∀ {groups : List (List ℕ)} {next : ℕ} {p : ℕ × List ℕ},
    p ∈ groupData next groups → next ≤ p.1 ∧ p.1 < next + groups.length ∧ p.2 ∈ groups
  | [], _, _, h => nomatch h
  | group :: groups, next, p, h => by
    rcases List.mem_cons.mp h with rfl | h
    · exact ⟨le_rfl, by simp, .head _⟩
    · obtain ⟨hle, hlt, hmem⟩ := mem_groupData h
      refine ⟨by omega, ?_, .tail _ hmem⟩
      rw [length_cons]
      omega

/-- What a compaction takes. -/
theorem Inv.old_of_canCompact (h : Inv s) (ht : s.mgr.txns i = some t)
    (hrunning : t.stage = .running) {id : ℕ} (hcan : s.canCompact i id) :
      ∃ e c, s.segmentMap id = some e ∧
      e.status = .sealed ∧ e.commitTs = some c ∧ c ≤ t.beginTs := by
  rw [canCompact, Bool.and_eq_true, inBlockIndex, ht, any_some] at hcan
  cases he : s.segmentMap id with
  | none =>
    rw [he] at hcan
    cases hcan.1
  | some e =>
    rw [he, any_some, any_some, decide_eq_true_eq, SegmentEntry.checkVisible, Bool.and_eq_true]
      at hcan
    obtain ⟨⟨-, hbase⟩, hsealed⟩ := hcan
    have hok := h.segment id e he
    obtain ⟨c, hc⟩ := isSome_iff_exists.mp (hok.isSome (by simp [hsealed]))
    exact ⟨e, c, rfl, hsealed, hc, (baseCheckVisible_iff h.life hok hc ht hrunning).mp hbase⟩

theorem Inv.compact (h : Inv s) (ht : s.mgr.txns i = some t) (hrunning : t.stage = .running)
    (hdata : s.compactData i = []) (hcan : ∀ id ∈ groups.flatten, s.canCompact i id) :
    Inv (s.compact i groups) := by
  have htaken : ∀ id ∈ groups.flatten, ∃ e c, s.segmentMap id = some e ∧ e.status = .sealed ∧
      e.commitTs = some c ∧ c ≤ t.beginTs :=
      fun id hid => h.old_of_canCompact ht hrunning (hcan id hid)
  have hopen : Undecided t := by simp [Undecided, hrunning]
  have holds : ∀ {k id}, id ∈ s.olds k → id ∉ groups.flatten := by
    intro k id hid hmem
    obtain ⟨p, hp, hidp⟩ := mem_olds.mp hid
    obtain ⟨u, hu, -, hok⟩ := h.pair k p hp
    obtain ⟨e, he, ho⟩ := hok.old id hidp
    obtain ⟨e₀, c, he₀, hsealed, -⟩ := htaken id hmem
    cases he.symm.trans he₀
    by_cases ha : u.Applied
    · simp [(ho.applied ha).1] at hsealed
    · simp [ho.pending ha] at hsealed
  -- the old segments afterwards
  have hgroup : ∀ {k id}, id ∈ (s.compact i groups).olds k → k = i ∧ id ∈ groups.flatten ∨ k ≠ i ∧
      id ∈ s.olds k := by
    intro k id hid
    obtain ⟨p, hp, hidp⟩ := mem_olds.mp hid
    change p ∈ (if k = i then _ else _) at hp
    split at hp
    next hk => exact .inl ⟨hk, mem_flatten.mpr ⟨p.2, (mem_groupData hp).2.2, hidp⟩⟩
    next hk => exact .inr ⟨hk, mem_olds.mpr ⟨p, hp, hidp⟩⟩
  have hmem : ∀ {id e}, s.segmentMap id = some e → id ∈ groups.flatten →
      (s.compact i groups).segmentMap id = some { e with status := .noDelete } := by
    intro id e he hid
    have hlt := h.ids id e he
    change (if _ then _ else if _ then _ else _) = _
    rw [if_neg (by omega), if_pos hid, he]
    rfl
  refine h.extend ((groupData s.nextSegmentId groups).map (·.1, true))
    (fun id e => if id ∈ groups.flatten then .noDelete else e.status) rfl (Nat.le_add_right _ _)
    (fun id => ?_) (fun id e he => ?_) (fun _ => rfl) ?_ (fun k p hp => ?_)
    fun k l id hkl hid hid' => ?_
  · change (if _ then _ else if _ then _ else _) = _
    by_cases hid : id ∈ groups.flatten <;> simp [hid, Table.compact]
  · by_cases hid : id ∈ groups.flatten
    · obtain ⟨e₀, c, he₀, hsealed, hc, -⟩ := htaken id hid
      cases he.symm.trans he₀
      exact .inr ⟨hc ▸ rfl, .inl hsealed⟩
    · exact .inl (if_neg hid)
  · intro a ha
    obtain ⟨p, hp, rfl⟩ := mem_map.mp ha
    exact ⟨(mem_groupData hp).1, (mem_groupData hp).2.1⟩
  · change p ∈ (if k = i then _ else _) at hp
    split at hp
    case isFalse => exact .inl hp
    case isTrue hk =>
      subst hk
      obtain ⟨hle, hlt, hgroup⟩ := mem_groupData hp
      refine .inr ⟨t, ht, hopen, ⟨_, if_pos ⟨hle, hlt⟩, rfl, fun ha => absurd ha hopen.not_applied,
        fun _ => rfl⟩, fun id hid => ?_, ?_⟩
      · have hid : id ∈ groups.flatten := mem_flatten.mpr ⟨p.2, hgroup, hid⟩
        obtain ⟨e, c, he, -, hc, hbegin⟩ := htaken id hid
        exact ⟨_, hmem he hid, ⟨c, hc, hbegin⟩, fun ha => absurd ha hopen.not_applied, fun _ => rfl⟩
      · change _ ∈ if k = k then _ else _
        rw [if_pos rfl]
        exact mem_append_right _ (mem_map.mpr ⟨p, hp, rfl⟩)
  · obtain ⟨hk, hid⟩ | ⟨-, hid⟩ := hgroup hid <;> obtain ⟨hl, hid'⟩ | ⟨-, hid'⟩ := hgroup hid'
    · exact hkl (hk.trans hl.symm)
    · exact holds hid' hid
    · exact holds hid hid'
    · exact h.disjoint k l id hkl hid hid'

end Compact

/-! ## All actions -/

theorem Inv.start : Inv .start where
  life := Life.start
  ids := nofun
  segment := nofun
  pair := nofun
  disjoint := nofun
  added_lt := nofun
  added_txn := nofun

theorem Inv.txn_commitBottom {s : Table} (h : Inv s) {mgr : TxnManager}
    (hstep : s.mgr.step .commitBottom = some mgr) (hfailed : mgr.failed = false) :
    Inv { s.afterTxn .commitBottom with mgr := mgr } := by
  have hlife := h.life.step hstep
  obtain ⟨i, rest, t, hqueue, hu, hsent, ⟨deleted, -, rfl, -⟩ | ⟨-, rfl⟩⟩ :=
    quiet_commitBottom hstep
  case inr => cases hfailed
  case inl =>
    have hm : Moved s.mgr .commitBottom { s.mgr.setTxn i { t with stage := .bottomed } with
        waitFlush := rest, deleted := deleted } i t { t with stage := .bottomed } :=
      ⟨hu.txn, rfl, rfl, hsent ▸ .commitBottom, fun _ => rfl⟩
    have hafter :
        s.afterTxn .commitBottom = { s with segmentMap := s.commitWrite i t.commitTs } := by
      simp [afterTxn, hqueue, hu.txn]
    rw [hafter]
    exact h.commitBottom hlife hm hsent rfl

/-- **Every action of a transaction keeps the invariant.** -/
theorem Inv.txn {s : Table} (h : Inv s) {a : Action} {mgr : TxnManager}
    (hstep : s.mgr.step a = some mgr)
    (hreads : s.readsOnly a) (hfailed : mgr.failed = false) :
    Inv { s.afterTxn a with mgr := mgr } := by
  by_cases hbottom : a = .commitBottom
  · subst hbottom
    exact h.txn_commitBottom hstep hfailed
  have hlife := h.life.step hstep
  rcases exists_moves hstep with ⟨store, rfl, rfl⟩ | ⟨-, rfl⟩ | ⟨i, t, t', hm⟩
  · exact h.beginTxn store
  · cases hfailed
  · have hmoves := hm.moves
    generalize hb : t.stage = b at hmoves
    generalize hc : t'.stage = c at hmoves
    cases hmoves with
    | commitBottom => exact absurd rfl hbottom
    | rollback | abort =>
      refine h.rollbackCompact hlife hm ?_
      simp [Txn.Applied, hb]
    | commitRead =>
      -- a transaction with a compaction is not read-only
      have hdata : s.compactData i = [] := by
        simp only [readsOnly, Bool.and_eq_true, List.isEmpty_iff] at hreads
        exact hreads.2
      refine h.moved hlife hm ?_ fun hne => absurd hdata hne
      simp [Txn.Applied, hb, hc]
    | finishRead hab =>
      refine h.moved hlife hm ?_ fun _ hopen => ?_
      · rcases hab with rfl | rfl <;> simp [Txn.Applied, hb, hc]
      · rcases hab with rfl | rfl <;> simp [Undecided, hb] at hopen
    | finishTxn | finishRollback =>
      refine h.moved hlife hm ?_ fun _ hopen => ?_
      · simp [Txn.Applied, hb, hc]
      · simp [Undecided, hb] at hopen
    | delete | getCommitTimeStampW | setTxnCommitting | prepareCommit1 | passes | conflicts | sends
    | rejects =>
      refine h.moved hlife hm ?_ fun _ _ => ?_
      · simp [Txn.Applied, hb, hc]
      · simp [Undecided, hc]

/-- **Every action keeps the invariant.** -/
theorem Inv.step {s s' : Table} (h : Inv s) {a : TableAction} (hstep : s.step a = some s') :
    Inv s' := by
  cases a with
  | txn a =>
    obtain ⟨mgr, hmgr, heq⟩ := bind_eq_some_iff.mp hstep
    split at heq <;> cases heq
    next hcond =>
      rw [Bool.and_eq_true, Bool.not_eq_true'] at hcond
      exact h.txn hmgr hcond.1 hcond.2
  | addSegment i flushed =>
    simp only [Table.step] at hstep
    split at hstep <;> cases hstep
    exact h.addSegment flushed
  | setSealed id =>
    obtain ⟨e, he, heq⟩ := bind_eq_some_iff.mp hstep
    split at heq <;> cases heq
    next hcond => exact h.setSealed he hcond.1 hcond.2
  | compact i groups =>
    obtain ⟨t, ht, heq⟩ := bind_eq_some_iff.mp hstep
    split at heq <;> cases heq
    next hcond =>
      obtain ⟨hrunning, hdata, -, hcan⟩ := hcond
      exact h.compact ht hrunning hdata (all_eq_true.mp hcan)

theorem Inv.of_reachable {s : Table} (h : compacting.Reachable s) : Inv s := by
  refine h.invariant (fun s hs => ?_) fun s a s' hinv hstep => hinv.step hstep
  rw [show s = .start from hs]
  exact Inv.start

end Infinity.Compaction
