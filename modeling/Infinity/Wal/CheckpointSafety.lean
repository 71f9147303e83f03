import Infinity.Wal.CheckpointInvariant

/-! # When checkpoints survive a crash

The entry with the checkpoint command is flushed after `CheckpointInner` has deleted the files that
the command makes superfluous. In between, the log still asks for those files, so that a crash there
can lose transactions or make recovery fail. This module shows that nothing else goes wrong: if
checkpoints are made one after the other (`Sys.Serial`), then recovery reflects exactly the flushed
transactions in every state whose deletions are covered by the last flushed checkpoint command
(`Sys.Covered`).
-/

namespace Infinity.Wal

open Foundations List Option

/-! ## The effects of a checkpoint -/

section Effects

variable {v : View} {m n : ℕ} {files : List CatalogFile}

theorem filter_ne_eq_self (h : ∀ f ∈ files, f.maxCommitTs ≠ m) :
    files.filter (·.maxCommitTs ≠ m) = files :=
  filter_eq_self.mpr fun f hf => decide_eq_true (h f hf)

theorem filter_ne_concat {f : CatalogFile} (hf : f.maxCommitTs = m)
    (h : ∀ f ∈ files, f.maxCommitTs ≠ m) : (files ++ [f]).filter (·.maxCommitTs ≠ m) = files := by
  rw [filter_append, filter_ne_eq_self h, filter_cons_of_neg (by simpa using hf)]
  exact append_nil _

/-- `Rename` of the temporary full catalog. -/
theorem Current.renameFull (h : Current v) (hmax : m = v.delta.maxCommitTs)
    (hlt : v.lastFullCkpTs < m) (hb : Bounds v) : FullSaved { v with
      catalog := ⟨none, v.catalog.fulls.filter (·.maxCommitTs ≠ m) ++ [fullFile v.history m],
      v.catalog.deltas⟩
      delta := { v.delta with lastFullCkpTs := m }
      lastCkpTs := m } v.lastFullCkpTs m := by
  refine ⟨?_, h.deltas, hlt, hmax ▸ hb.newest_le, hmax, rfl, ?_⟩
  · have hkeep : v.catalog.fulls.filter (·.maxCommitTs ≠ m) = v.catalog.fulls := by
      apply filter_ne_eq_self
      rw [h.fulls]
      simpa [fullFile] using hlt.ne
    simp only [hkeep]
    rw [h.fulls]
    rfl
  · have hnone : v.delta.ops.filter (m < ·) = [] := by
      rw [filter_eq_nil_iff]
      intro u hu
      simpa [hmax] using hb.ops_le u hu
    simp only [GlobalDelta.pickFlushEntry, hnone, ← hmax, between_self]

/-- The delta file is opened. -/
theorem Current.createDelta (h : Current v) (hmax : m = v.delta.maxCommitTs) (hlt : v.newest < m) :
      DeltaOpen { v with
      catalog := { v.catalog with
        deltas := v.catalog.deltas.filter (·.maxCommitTs ≠ m) ++ [⟨m, none⟩] }
      delta := { v.delta with ops := [] } } m := by
  have hkeep : v.catalog.deltas.filter (·.maxCommitTs ≠ m) = v.catalog.deltas := by
    apply filter_ne_eq_self
    intro f hf
    have := (h.deltas.mem f hf).2
    omega
  exact ⟨h.fulls, ⟨v.catalog.deltas, by simp only [hkeep], h.deltas⟩, hlt, hmax, rfl⟩

/-- The delta file is written. -/
theorem DeltaOpen.writeDelta (h : DeltaOpen v m) : DeltaSaved { v with
      catalog := { v.catalog with
        deltas := v.catalog.deltas.filter (·.maxCommitTs ≠ m) ++
      [⟨m, some (between v.history v.newest m)⟩] }
      lastCkpTs := m } m := by
  obtain ⟨deltas, hdeltas, hchain⟩ := h.deltas
  have hkeep : v.catalog.deltas.filter (·.maxCommitTs ≠ m) = deltas := by
    rw [hdeltas]
    refine filter_ne_concat rfl fun f hf => ?_
    have hle := (hchain.mem f hf).2
    have hlt := h.lt
    omega
  refine ⟨h.fulls, ⟨deltas, by simp only [hkeep], hchain⟩, h.lt, h.max_eq.le, rfl, ?_⟩
  simp only [GlobalDelta.pickFlushEntry, h.ops, ← h.max_eq, between_self, filter_nil]

/-- The older full catalog is deleted. -/
theorem FullSaved.deleteFull (h : FullSaved v n m) (hfull : v.lastFullCkpTs = m) {k : ℕ}
    (hk : k < m) (hmem : k ∈ v.catalog.fulls.map CatalogFile.maxCommitTs) : FullAlone { v with
      catalog := { v.catalog with fulls := v.catalog.fulls.filter (·.maxCommitTs ≠ k) }
      reach := max v.reach m } m := by
  obtain rfl : k = n := by
    rw [h.fulls] at hmem
    rcases mem_cons.mp hmem with heq | hmem
    · exact heq
    · exact absurd (mem_singleton.mp hmem) hk.ne
  refine ⟨?_, ?_, h.le, h.max_eq.le, le_max_right _ _, h.ckp_eq, hfull, h.ops⟩
  · have hne : m ≠ k := h.lt.ne'
    simp [h.fulls, fullFile, hne]
  · exact fun f hf => (h.deltas.mem f hf).2.trans h.le

theorem FullAlone.deleteDelta (h : FullAlone v m) (k : ℕ) : FullAlone { v with
      catalog := { v.catalog with deltas := v.catalog.deltas.filter (·.maxCommitTs ≠ k) }
      reach := max v.reach m } m :=
  ⟨h.fulls, fun f hf => h.deltas f (mem_of_mem_filter hf), h.le, h.le_max, le_max_right _ _,
    h.ckp_eq, h.full_eq, h.ops⟩

/-- A full checkpoint without older full catalogs left. -/
theorem FullSaved.exists_older (h : FullSaved v n m) :
    ¬ ∀ f ∈ v.catalog.fulls, m ≤ f.maxCommitTs := by
  intro hall
  have hn := hall (fullFile v.history n) (by rw [h.fulls]; exact .head _)
  exact absurd h.lt (by simpa [fullFile] using hn)

/-- The checkpoint command is flushed. -/
theorem DeltaSaved.logCheckpoint (h : DeltaSaved v m) : Current { v with newest := m } := by
  obtain ⟨deltas, hdeltas, hchain⟩ := h.deltas
  refine ⟨h.fulls, ?_, h.ckp_eq, h.ops⟩
  simp only [hdeltas]
  exact hchain.snoc h.lt

theorem FullAlone.logCheckpoint (h : FullAlone v m) (hnil : v.catalog.deltas = []) :
    Current { v with newest := m } := by
  refine ⟨?_, ?_, h.ckp_eq, h.ops⟩
  · simp only [h.full_eq, h.fulls]
  · simp only [hnil, h.full_eq]
    exact .nil

end Effects

/-! ## Every action -/

/-- What holds in every reachable state. -/
structure Inv (s : Sys) : Prop where
  log : LogInv s.wal s.flushed s.maxCommitTs s.newest s.reach
  bounds : Bounds s.view
  max_le : s.delta.maxCommitTs ≤ s.maxCommitTs
  catalog : CatalogInv s.view s.unlogged s.checkpoint

/-- A checkpoint begins when the checkpoint commands of the earlier ones are flushed. -/
def Sys.Serial (s : Sys) : Action → Prop
  | .beginCheckpoint _ => s.unlogged = []
  | _ => True

instance (s : Sys) : ∀ a : Action, Decidable (s.Serial a)
  | .beginCheckpoint _ => inferInstanceAs (Decidable (s.unlogged = []))
  | .commit _ | .addDeltaEntry | .swapRename | .swapCreate | .saveTemp | .renameFull | .createDelta
  | .writeDelta | .deleteWal _ | .walRecycled | .deleteFull _ | .deleteDelta _ | .catalogRecycled
  | .logCheckpoint _ _ => isTrue trivial

/-- The deletions are covered by the checkpoint command that was flushed last. -/
def Sys.Covered (s : Sys) : Prop := s.reach ≤ s.newest

instance (s : Sys) : Decidable s.Covered := inferInstanceAs (Decidable (_ ≤ _))

theorem Sys.flush_eq_some {s s' : Sys} {e : Rec} (h : s.flush e = some s') :
    ∃ entries, s.wal.walLog = some entries ∧ s.maxCommitTs < e.ts ∧ s' = { s with
        wal := { s.wal with walLog := some (entries ++ [e]) }
        maxCommitTs := e.ts
        flushed := s.flushed ++ [e] } := by
  rw [Sys.flush] at h
  split at h
  next entries hlog =>
    split at h
    next hlt => exact ⟨entries, hlog, hlt, (Option.some.inj h).symm⟩
    · cases h
  · cases h

namespace Inv

variable {s s' : Sys} {full : Bool} {ts : ℕ}

theorem history_ordered (h : Inv s) : s.history.Pairwise (· < ·) := pairwise_txns h.log.ordered

theorem catalogAt (h : Inv s) {c : Option Checkpoint} (hckp : s.checkpoint = c) :
    CatalogInv s.view s.unlogged c :=
  hckp ▸ h.catalog

theorem start : Inv .start where
  log := by
    refine ⟨?_, ?_, ?_, ?_, rfl, .nil, nofun, nofun, [], 1, [], rfl, one_pos, nofun⟩
    · exact pairwise_singleton _ _
    · simp [Sys.start, Rec.ts]
    · exact pairwise_singleton _ _
    · simp [Sys.start, WalDir.entries, Rec.ts]
  bounds := ⟨le_rfl, le_rfl, nofun⟩
  max_le := Nat.zero_le _
  catalog := .inl ⟨rfl, rfl, .nil, rfl, rfl⟩

theorem commit (h : Inv s) (hstep : s.step (.commit ts) = some s') : Inv s' := by
  obtain ⟨entries, hlog, hlt, rfl⟩ := Sys.flush_eq_some hstep
  have hmax : s.delta.maxCommitTs < ts := h.max_le.trans_lt hlt
  have hview : txns (s.flushed ++ [.commit ts]) = s.history ++ [ts] := txns_append _ _
  refine ⟨h.log.flush hlog hlt (.inl ⟨rfl, rfl⟩), { h.bounds with }, hmax.le, ?_⟩
  have hcat := h.catalog.commit hmax h.bounds.newest_le
  simpa only [View.commit, Sys.view, Sys.history, hview] using hcat

theorem logCheckpoint (h : Inv s) {m : ℕ} (hstep : s.step (.logCheckpoint m ts) = some s') :
    Inv s' := by
  simp only [Sys.step] at hstep
  split at hstep
  case isFalse => cases hstep
  case isTrue hmem =>
    obtain ⟨t, hflush, rfl⟩ := map_eq_some_iff.mp hstep
    obtain ⟨entries, hlog, hlt, rfl⟩ := Sys.flush_eq_some hflush
    have hview : txns (s.flushed ++ [.checkpoint ts m]) = s.history := by
      rw [txns_append]
      exact append_nil _
    have hcat := h.catalog
    cases hckp : s.checkpoint with
    | some c =>
      rw [hckp] at hcat
      rw [hcat.1] at hmem
      cases hmem
    | none =>
      rw [hckp] at hcat
      rcases hcat with ⟨hnil, -⟩ | ⟨m', hone, hsaved⟩
      · rw [hnil] at hmem
        cases hmem
      · obtain rfl : m = m' := by
          rw [hone] at hmem
          exact mem_singleton.mp hmem
        have hcurrent : Current { s.view with newest := m } := by
          rcases hsaved with hsaved | ⟨hsaved, hnil⟩
          · exact hsaved.logCheckpoint
          · exact hsaved.logCheckpoint hnil
        have hle : m ≤ s.delta.maxCommitTs := by
          rcases hsaved with hsaved | ⟨hsaved, -⟩
          · exact hsaved.le
          · exact hsaved.le_max
        have hts : m < ts := (hle.trans h.max_le).trans_lt hlt
        refine ⟨h.log.flush hlog hlt (.inr ⟨ts, rfl, hts⟩),
          ⟨hle, h.bounds.full_le, h.bounds.ops_le⟩, h.max_le.trans hlt.le, ?_⟩
        simp only [hone, erase_cons_head]
        refine .inl ⟨rfl, ?_⟩
        simpa only [Sys.view, Sys.history, hview] using hcurrent

theorem addDeltaEntry (h : Inv s) (hstep : s.step .addDeltaEntry = some s') : Inv s' := by
  simp only [Sys.step] at hstep
  split at hstep <;> cases hstep
  rename_i ts hckp hfind
  have hcat := h.catalog
  rw [hckp] at hcat
  have hmem : ts ∈ s.history := mem_of_find?_eq_some hfind
  have hle : ts ≤ s.maxCommitTs := by
    obtain ⟨e, he, hts⟩ := mem_filterMap.mp hmem
    rw [← Rec.txn?_eq_some hts]
    exact h.log.ordered_le e he
  refine ⟨h.log, h.bounds.addDelta h.history_ordered hfind, hle, ?_⟩
  simp only [hckp]
  exact hcat.addDelta h.history_ordered h.bounds hfind

theorem swapRename (h : Inv s) (hstep : s.step .swapRename = some s') : Inv s' := by
  simp only [Sys.step] at hstep
  split at hstep <;> cases hstep
  rename_i e es hlog
  exact ⟨h.log.swapRename hlog, h.bounds, h.max_le, h.catalog⟩

theorem swapCreate (h : Inv s) (hstep : s.step .swapCreate = some s') : Inv s' := by
  simp only [Sys.step] at hstep
  split at hstep <;> cases hstep
  rename_i hlog
  exact ⟨h.log.swapCreate hlog, h.bounds, h.max_le, h.catalog⟩

/-- The checks of `CheckpointInner` let a checkpoint pass only if there is something new. -/
theorem checkCheckpoint_lt (h : s.checkCheckpoint full = .ok true) :
    (full → s.delta.maxCommitTs ≠ s.lastFullCkpTs) ∧
    (full = false → s.delta.maxCommitTs ≠ s.lastCkpTs) := by
  cases full with
  | true =>
    refine ⟨fun _ heq => ?_, nofun⟩
    simp [Sys.checkCheckpoint, heq] at h
  | false =>
    refine ⟨nofun, fun _ heq => ?_⟩
    simp [Sys.checkCheckpoint, heq] at h

section

variable (h : Inv s) {n : ℕ}
include h

theorem beginCheckpoint (hserial : s.unlogged = [])
    (hstep : s.step (.beginCheckpoint full) = some s') : Inv s' := by
  simp only [Sys.step] at hstep
  split at hstep
  case h_1 hckp hcheck =>
    cases hstep
    refine ⟨h.log, h.bounds, h.max_le, ?_⟩
    have hcat := h.catalog
    rw [hckp] at hcat
    rcases hcat with ⟨hnil, hcurrent⟩ | ⟨m, hone, -⟩
    · obtain ⟨hfull, hdelta⟩ := checkCheckpoint_lt hcheck
      have hnewest := h.bounds.newest_le
      have hchain := hcurrent.deltas.le
      have hckpTs := hcurrent.ckp_eq
      refine ⟨hnil, ?_⟩
      cases full with
      | true => exact ⟨hcurrent, rfl, lt_of_le_of_ne (hchain.trans hnewest) (hfull rfl).symm⟩
      | false =>
        refine ⟨hcurrent, rfl, lt_of_le_of_ne hnewest ?_⟩
        exact fun heq => hdelta rfl (heq.symm.trans hckpTs.symm)
    · cases hserial.symm.trans hone
  case h_2 =>
    cases hstep
    exact h
  case h_3 => cases hstep

theorem saveTemp (hstep : s.step .saveTemp = some s') : Inv s' := by
  simp only [Sys.step] at hstep
  split at hstep <;> cases hstep
  rename_i m hckp
  obtain ⟨hnil, hcurrent, hmax, hlt⟩ := h.catalogAt hckp
  exact ⟨h.log, { h.bounds with }, h.max_le, hnil, { hcurrent with }, hmax, hlt, rfl⟩

theorem renameFull (hstep : s.step .renameFull = some s') : Inv s' := by
  simp only [Sys.step] at hstep
  split at hstep <;> cases hstep
  rename_i m file hckp htemp
  obtain ⟨hnil, hcurrent, hmax, hlt, hfile⟩ := h.catalogAt hckp
  cases htemp.symm.trans hfile
  exact ⟨h.log, ⟨h.bounds.newest_le, hmax.le, h.bounds.ops_le⟩, h.max_le, hnil,
    hcurrent.renameFull hmax hlt h.bounds⟩

theorem createDelta (hstep : s.step .createDelta = some s') : Inv s' := by
  simp only [Sys.step] at hstep
  split at hstep
  case h_2 => cases hstep
  case h_1 m hckp =>
    obtain ⟨hnil, hcurrent, hmax, hlt⟩ := h.catalogAt hckp
    have hbounds : ∀ u ∈ ([] : List ℕ), u ≤ s.delta.maxCommitTs := nofun
    split at hstep
    case isTrue hempty =>
      cases hstep
      refine ⟨h.log, ⟨h.bounds.newest_le, h.bounds.full_le, hbounds⟩, h.max_le, .inl ⟨hnil, ?_⟩⟩
      exact { hcurrent with ops := (isEmpty_iff.mp hempty).symm.trans hcurrent.ops }
    case isFalse =>
      cases hstep
      exact ⟨h.log, ⟨h.bounds.newest_le, h.bounds.full_le, hbounds⟩, h.max_le, hnil,
        hcurrent.createDelta hmax hlt, hcurrent.ops.trans (by rw [hmax]; rfl)⟩

theorem writeDelta (hstep : s.step .writeDelta = some s') : Inv s' := by
  simp only [Sys.step] at hstep
  split at hstep <;> cases hstep
  rename_i m ops hckp
  obtain ⟨hnil, hopen, hops⟩ := h.catalogAt hckp
  obtain rfl : ops = between s.history s.newest m := hops
  exact ⟨h.log, { h.bounds with }, h.max_le, hnil, hopen.writeDelta⟩

theorem deleteWal (hstep : s.step (.deleteWal n) = some s') : Inv s' := by
  simp only [Sys.step] at hstep
  split at hstep
  case h_2 => cases hstep
  case h_1 full m hckp =>
    obtain ⟨-, hstep⟩ := ite_none_right_eq_some.mp hstep
    cases hstep
    refine ⟨h.log.deleteWal n, { h.bounds with }, h.max_le, ?_⟩
    have hcat := h.catalog
    rw [hckp] at hcat
    simp only [hckp]
    obtain ⟨hnil, hrun⟩ := hcat
    cases full with
    | true =>
      have hsaved : FullSaved s.view s.lastFullCkpTs m := hrun
      exact ⟨hnil, { hsaved with }⟩
    | false =>
      have hsaved : DeltaSaved s.view m := hrun
      exact ⟨hnil, { hsaved with }⟩

theorem walRecycled (hstep : s.step .walRecycled = some s') : Inv s' := by
  simp only [Sys.step] at hstep
  have hcat := h.catalog
  have hbounds : Bounds s'.view ∧ s'.delta.maxCommitTs ≤ s'.maxCommitTs ∧
      LogInv s'.wal s'.flushed s'.maxCommitTs s'.newest s'.reach := by
    split at hstep <;> cases hstep <;> exact ⟨{ h.bounds with }, h.max_le, h.log⟩
  refine ⟨hbounds.2.2, hbounds.1, hbounds.2.1, ?_⟩
  split at hstep
  case h_1 m hckp =>
    cases hstep
    rw [hckp] at hcat
    obtain ⟨hnil, hrun⟩ := hcat
    have hsaved : FullSaved s.view s.lastFullCkpTs m := hrun
    exact ⟨hnil, rfl, .inl ⟨s.lastFullCkpTs, { hsaved with }⟩⟩
  case h_2 m hckp =>
    cases hstep
    rw [hckp] at hcat
    obtain ⟨hnil, hrun⟩ := hcat
    exact .inr ⟨m, by rw [hnil]; rfl, .inl hrun⟩
  case h_3 => cases hstep

theorem deleteFull (hstep : s.step (.deleteFull n) = some s') : Inv s' := by
  simp only [Sys.step] at hstep
  split at hstep
  case h_2 => cases hstep
  case h_1 m hckp =>
    obtain ⟨hguard, hstep⟩ := ite_none_right_eq_some.mp hstep
    cases hstep
    obtain ⟨hnil, hfull, hsaved⟩ := h.catalogAt hckp
    refine ⟨h.log.raise (le_max_left _ _), { h.bounds with }, h.max_le, ?_⟩
    simp only [hckp]
    refine ⟨hnil, hfull, .inr ?_⟩
    rcases hsaved with ⟨k, hsaved⟩ | halone
    · exact hsaved.deleteFull hfull hguard.1 hguard.2
    · have hmem := hguard.2
      rw [show s.catalog.fulls = [fullFile s.history m] from halone.fulls] at hmem
      exact absurd (mem_singleton.mp hmem) hguard.1.ne

theorem deleteDelta (hstep : s.step (.deleteDelta n) = some s') : Inv s' := by
  simp only [Sys.step] at hstep
  split at hstep
  case h_2 => cases hstep
  case h_1 m hckp =>
    obtain ⟨hguard, hstep⟩ := ite_none_right_eq_some.mp hstep
    cases hstep
    obtain ⟨hnil, hfull, hsaved⟩ := h.catalogAt hckp
    refine ⟨h.log.raise (le_max_left _ _), { h.bounds with }, h.max_le, ?_⟩
    simp only [hckp]
    refine ⟨hnil, hfull, .inr ?_⟩
    rcases hsaved with ⟨k, hsaved⟩ | halone
    · exact absurd hguard.2.2 hsaved.exists_older
    · exact halone.deleteDelta n

theorem catalogRecycled (hstep : s.step .catalogRecycled = some s') : Inv s' := by
  simp only [Sys.step] at hstep
  split at hstep
  case h_2 => cases hstep
  case h_1 m hckp =>
    obtain ⟨hguard, hstep⟩ := ite_none_right_eq_some.mp hstep
    cases hstep
    obtain ⟨hnil, hfull, hsaved⟩ := h.catalogAt hckp
    refine ⟨h.log, h.bounds, h.max_le, .inr ⟨m, by rw [hnil]; rfl, .inr ?_⟩⟩
    rcases hsaved with ⟨k, hsaved⟩ | halone
    · exact absurd hguard.1 hsaved.exists_older
    · refine ⟨halone, eq_nil_iff_forall_not_mem.mpr fun f hf => ?_⟩
      exact absurd (hguard.2.2 f hf) (halone.deltas f hf).not_gt

/-- **Every action of a serial run keeps the invariant.** -/
theorem step {a : Action} (hserial : s.Serial a) (hstep : s.step a = some s') : Inv s' := by
  cases a with
  | commit ts => exact h.commit hstep
  | addDeltaEntry => exact h.addDeltaEntry hstep
  | swapRename => exact h.swapRename hstep
  | swapCreate => exact h.swapCreate hstep
  | beginCheckpoint full => exact h.beginCheckpoint hserial hstep
  | saveTemp => exact h.saveTemp hstep
  | renameFull => exact h.renameFull hstep
  | createDelta => exact h.createDelta hstep
  | writeDelta => exact h.writeDelta hstep
  | deleteWal n => exact h.deleteWal hstep
  | walRecycled => exact h.walRecycled hstep
  | deleteFull n => exact h.deleteFull hstep
  | deleteDelta n => exact h.deleteDelta hstep
  | catalogRecycled => exact h.catalogRecycled hstep
  | logCheckpoint m ts => exact h.logCheckpoint hstep

/-- What the invariant is for. -/
theorem recovers (hcovered : s.Covered) : s.Recovers := by
  obtain ⟨older, ts, newer, hsplit, hlt, hnewer⟩ := h.log.last
  exact replayWalFile_eq h.log.swapped h.log.entries h.log.ordered h.log.kept hsplit hlt hnewer
    hcovered (h.catalog.attach h.history_ordered hcovered)

end

end Inv

/-- **Checkpoints survive a crash whenever the deletions are covered**: in every run whose
checkpoints are made one after the other, recovery reflects exactly the flushed transactions in
every state whose deletions are covered by the checkpoint command that was flushed last. -/
theorem recovers_of_covered {s : Sys}
    (hreach : (checkpointing.restrict Sys.Serial).Reachable s) (hcovered : s.Covered) :
    s.Recovers := by
  refine Inv.recovers ?_ hcovered
  refine hreach.invariant (fun s hs => ?_) fun s a s' hinv hstep => ?_
  · rw [show s = .start from hs]
    exact .start
  · obtain ⟨hserial, hstep⟩ := TransitionSystem.restrict_step_eq_some.mp hstep
    exact hinv.step hserial hstep

/-- A transaction, a delta checkpoint with its command, a swap, a transaction and the first half of
a full checkpoint. -/
def coveredRun : List Action :=
  [.commit 2, .addDeltaEntry, .beginCheckpoint false, .createDelta, .writeDelta, .walRecycled,
    .logCheckpoint 2 3, .swapRename, .swapCreate, .commit 4, .addDeltaEntry, .beginCheckpoint true,
    .saveTemp, .renameFull]

theorem recovers_coveredRun : ∃ s, (checkpointing.restrict Sys.Serial).run .start coveredRun =
    some s ∧ s.history = [2, 4] ∧ s.Recovers :=
  ⟨_, rfl, rfl, recovers_of_covered (.of_run coveredRun (.initial rfl) rfl) (by decide)⟩

end Infinity.Wal
