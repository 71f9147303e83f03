import Infinity.Catalog.Exclusion

/-! # Write exclusion while a commit is under way (`TxnStore::CommitBottom`)

The bottom half of a commit gives the entries of a transaction their time stamp one after the other,
in the order of a hash map and without the lock of the list. In between another transaction can find
an entry that has its time stamp already and write in front of one that has none. If the entries of
the transaction in its bottom half are taken for committed (`Bottoming.view`), every step is one of
the system that commits them at once, or none, and write exclusion holds.

* `Bottoming.view_step`: the simulation.
* `exclusion_of_reachable`: the shape of the list, the exclusion of writers, and what a rollback
  leaves.
* `not_exclusive_overtakingRun`: two transactions have uncommitted entries.
-/

namespace Infinity.Catalog

open Foundations Transactions List Option Entry

variable {β : Type*}

/-- A name with the transaction whose bottom half began last, and its commit time stamp. -/
structure Bottoming (β : Type*) extends Meta β where
  bottom : Option (ℕ × ℕ)

/-- `commitEntry` is `BaseEntry::Commit` of the entry at a position, if it is one of the transaction
in its bottom half. -/
inductive BottomingAction (β : Type*) where
  | act (a : MetaAction β)
  | commitEntry (n : ℕ)

namespace Bottoming

/-- An entry of the transaction in its bottom half is taken for committed. -/
def settled (s : Bottoming β) (e : Entry β) : Entry β :=
  s.bottom.elim e fun p => e.commit p.1 p.2

/-- The name with the bottom half that is under way taken for done. -/
def view (s : Bottoming β) : Meta β := { s.toMeta with entryList := s.entryList.map s.settled }

/-- `WalManager::Flush` begins a bottom half when the one before it is done. -/
def idle (s : Bottoming β) : Bool := s.bottom.all fun p => HoldsNone p.1 s.entryList

/-- The list after `AddEntry` or `DropEntry`, with the record of what stood before. -/
def write (s : Bottoming β) (i : ℕ) (r : List (Entry β) × Option (Entry β) × Status) :
    Bottoming β :=
  if r.2.2 = .ok then
    { s with entryList := r.1, before := (s.view.setList i r.1).before }
  else s

/-- The state after an action; there are no cleanups. -/
def step (s : Bottoming β) : BottomingAction β → Option (Bottoming β)
  | .act (.txn .commitBottom) =>
    if s.idle then
      (s.toMeta.step (.txn .commitBottom)).map fun m =>
        -- the loop over the entries of the transaction begins
        { m with
          entryList := s.entryList
          bottom := s.mgr.waitFlush.head?.map fun i =>
            (i, ((s.mgr.txns i).map Txn.commitTs).getD 0) }
    else none
  | .act (.txn (.finishTxn i)) =>
    -- the transaction is woken up after its bottom half
    if HoldsNone i s.entryList then
      (s.toMeta.step (.txn (.finishTxn i))).map (⟨·, s.bottom⟩)
    else none
  | .act (.addEntry i conflictType data) =>
    (s.mgr.txns i).bind fun t =>
      if t.stage = .running then
        some (s.write i
          (addEntry s.type s.mgr.getTxnState conflictType i t.beginTs data s.entryList))
      else none
  | .act (.dropEntry i conflictType data) =>
    (s.mgr.txns i).bind fun t =>
      if t.stage = .running then
        some (s.write i
          (dropEntry s.type s.mgr.getTxnState conflictType i t.beginTs data s.entryList))
      else none
  | .act (.pickCleanup _) => none
  | .act a => (s.toMeta.step a).map (⟨·, s.bottom⟩)
  | .commitEntry n =>
    s.bottom.map fun p => { s with entryList := s.entryList.modify n (·.commit p.1 p.2) }

/-- The transaction of the bottom half has committed or is about to. -/
def Done (s : Bottoming β) : Prop :=
  ∀ p ∈ s.bottom, ∃ t, s.mgr.txns p.1 = some t ∧ (t.stage = .bottomed ∨ t.stage = .committed)

end Bottoming

/-- The system of all interleavings in which entries are committed one after the other. -/
def bottoming (β : Type*) : TransitionSystem (Bottoming β) (BottomingAction β) where
  Initial s := ∃ type, s = ⟨.start type, none⟩
  step := Bottoming.step

/-! ## The simulation -/

namespace Bottoming

section Settled

variable {s s' : Bottoming β} {e : Entry β} {list : List (Entry β)} {i j beginTs : ℕ}

theorem txnId_settled : (s.settled e).txnId = e.txnId := by
  rw [settled]
  cases s.bottom with
  | none => rfl
  | some p => exact txnId_commit

theorem settled_of_ne (h : ∀ p ∈ s.bottom, e.committed = false → e.txnId ≠ p.1) :
    s.settled e = e := by
  rw [settled]
  cases hb : s.bottom with
  | none => rfl
  | some p => exact commit_of_ne fun hown => h p hb hown.2 hown.1

theorem settled_of_committed (h : e.committed) : s.settled e = e :=
  settled_of_ne fun _ _ hc => by
    rw [h] at hc
    cases hc

theorem settled_commit {p : ℕ × ℕ} (hp : p ∈ s.bottom) :
    s.settled (e.commit p.1 p.2) = s.settled e := by
  rw [settled, settled, mem_def.mp hp]
  show (e.commit p.1 p.2).commit p.1 p.2 = e.commit p.1 p.2
  by_cases hown : e.txnId = p.1 ∧ e.committed = false
  · refine commit_of_ne fun h => ?_
    rw [commit, if_pos hown] at h
    cases h.2
  · rw [commit_of_ne hown, commit_of_ne hown]

theorem holdsNone_settled (h : HoldsNone i list) : HoldsNone i (list.map s.settled) := by
  intro e he hc
  obtain ⟨f, hf, rfl⟩ := mem_map.mp he
  rw [txnId_settled]
  refine h f hf ?_
  by_contra hcommitted
  rw [settled_of_committed (by simpa using hcommitted)] at hc
  exact hcommitted hc

/-- A bottom half that is done leaves nothing to be settled. -/
theorem view_of_idle (h : s.idle) : s.view = s.toMeta := by
  have hsame : s.entryList.map s.settled = s.entryList := by
    refine (map_congr_left fun e he => settled_of_ne fun p hp hc => ?_).trans (map_id _)
    rw [idle, mem_def.mp hp] at h
    exact of_decide_eq_true h e he hc
  rw [view, hsame]

/-- Nobody takes the transaction of the bottom half for one that is running or rolled back. -/
theorem Done.state (h : s.Done) {p : ℕ × ℕ} (hp : p ∈ s.bottom) :
    s.mgr.getTxnState p.1 = .committing ∨ s.mgr.getTxnState p.1 = .committed := by
  obtain ⟨t, ht, hstage⟩ := h p hp
  rw [TxnManager.getTxnState]
  split
  · rcases hstage with hs | hs <;> simp [ht, hs, Stage.state]
  · exact .inr rfl

theorem Done.ne_of_running (h : s.Done) {t : Txn} (ht : s.mgr.txns i = some t)
    (hstage : t.stage = .running) {p : ℕ × ℕ} (hp : p ∈ s.bottom) : i ≠ p.1 := by
  rintro rfl
  obtain ⟨u, hu, hdone⟩ := h p hp
  cases ht.symm.trans hu
  rcases hdone with hs | hs <;> cases hstage.symm.trans hs

/-- `FindEntry` finds a conflict where an entry is not settled. -/
theorem Done.findEntry_settled (h : s.Done)
    (hfind : findEntry s.mgr.getTxnState i beginTs list ≠ .conflict) :
    findEntry s.mgr.getTxnState i beginTs (list.map s.settled) =
      findEntry s.mgr.getTxnState i beginTs list := by
  induction list with
  | nil => rfl
  | cons e list ih =>
    have hsame : s.settled e = e := by
      refine settled_of_ne fun p hp hc heq => hfind ?_
      have hts : e.commitTs = none := by simpa [committed] using hc
      rw [findEntry, hts]
      rcases h.state hp with hs | hs <;> simp [heq, hs]
    rw [findEntry] at hfind
    rw [map_cons, hsame, findEntry, findEntry]
    cases hts : e.commitTs with
    | some ts => rfl
    | none =>
      rw [hts] at hfind
      cases hstate : s.mgr.getTxnState e.txnId <;> simp only [hstate] at hfind ⊢
      · exact ih hfind
      · exact ih hfind

end Settled

section Simulation

variable {s s' : Bottoming β} {a : BottomingAction β} {i : ℕ} {t : Txn}
  {conflictType : ConflictType} {data : β}

theorem write_view {r r' : List (Entry β) × Option (Entry β) × Status}
    (hr : r.2.2 = .ok → r'.1 = r.1.map s.settled) :
    (s.write i r).view = s.view ∨ (s.write i r).view = s.view.setList i r'.1 := by
  rw [write]
  split
  next hok =>
    rw [hr hok]
    exact .inr rfl
  next => exact .inl rfl

theorem Done.write (h : s.Done) {r : List (Entry β) × Option (Entry β) × Status} :
    (s.write i r).Done := by
  rw [Bottoming.write]
  split <;> exact h

section

variable (h : s.Done) (ht : s.mgr.txns i = some t) (hstage : t.stage = .running)
include h ht hstage

/-- The entries of a running transaction are not those of the bottom half. -/
theorem Done.settled_own {e : Entry β} (hown : e.txnId = i) : s.settled e = e :=
  settled_of_ne fun _ hp _ => hown ▸ h.ne_of_running ht hstage hp

theorem Done.addEntry_settled
    (hok : (addEntry s.type s.mgr.getTxnState conflictType i t.beginTs data s.entryList).2.2 =
    .ok) : (addEntry s.type s.mgr.getTxnState conflictType i t.beginTs data s.view.entryList).1 =
      (addEntry s.type s.mgr.getTxnState conflictType i t.beginTs data s.entryList).1.map
        s.settled := by
  have hfind := @findEntry_settled _ s s.entryList i t.beginTs h
  have hown : s.settled ⟨i, none, false, data⟩ = _ := h.settled_own ht hstage rfl
  unfold addEntry at hok ⊢
  rw [view]
  cases hr : findEntry s.mgr.getTxnState i t.beginTs s.entryList with
  | conflict => simp [hr, Status.writeConflict] at hok
  | uncommittedDelete | notFound =>
    rw [hr] at hfind
    simp [hfind nofun, hown]
  | uncommitted | found =>
    rw [hr] at hfind
    cases conflictType <;> simp [hfind nofun]

theorem Done.dropEntry_settled
    (hok : (dropEntry s.type s.mgr.getTxnState conflictType i t.beginTs data s.entryList).2.2 =
    .ok) : (dropEntry s.type s.mgr.getTxnState conflictType i t.beginTs data s.view.entryList).1 =
      (dropEntry s.type s.mgr.getTxnState conflictType i t.beginTs data s.entryList).1.map
        s.settled := by
  have hfind := @findEntry_settled _ s s.entryList i t.beginTs h
  have hown : s.settled ⟨i, none, true, data⟩ = _ := h.settled_own ht hstage rfl
  unfold dropEntry at hok ⊢
  rw [view]
  cases hr : findEntry s.mgr.getTxnState i t.beginTs s.entryList with
  | conflict => simp [hr, Status.writeConflict] at hok
  | uncommittedDelete | notFound =>
    rw [hr] at hfind
    cases conflictType <;> simp [hfind nofun]
  | uncommitted =>
    rw [hr] at hfind
    simp [hfind nofun]
  | found =>
    rw [hr] at hfind
    simp [hfind nofun, hown]

end

/-- An action of a transaction that leaves the list as it is. -/
theorem txn_view {b : Action} {m : Meta β} (hstep : s.toMeta.step (.txn b) = some m)
    (hb : b ≠ .commitBottom) :
    s.mgr.step b = some m.mgr ∧
      s.view.step (.txn b) = some (view ⟨m, s.bottom⟩) := by
  obtain ⟨mgr, hmgr, heq⟩ := bind_eq_some_iff.mp hstep
  obtain ⟨hcond, ⟨⟩⟩ := ite_none_right_eq_some.mp heq
  have hafter : ∀ r : Meta β, r.afterTxn b = r := fun r => by
    cases b <;> first | rfl | exact absurd rfl hb
  obtain ⟨hfollows, hfailed⟩ := Bool.and_eq_true_iff.mp hcond
  have hview : s.view.follows b = true := by
    cases b <;> first | rfl | exact decide_eq_true (holdsNone_settled (of_decide_eq_true hfollows))
  refine ⟨hmgr, ?_⟩
  show (s.mgr.step b).bind _ = _
  rw [hmgr]
  simp only [bind_some, hview, hfailed, hafter]
  rfl

theorem deleteEntry_settled :
    (deleteEntry i s.entryList).map s.settled = deleteEntry i (s.entryList.map s.settled) := by
  rw [deleteEntry, deleteEntry, List.filter_map]
  congr 2
  funext e
  simp [txnId_settled]

/-- The begin of a bottom half commits the entries of the transaction in the view. -/
theorem commitBottom_view (hstep : s.step (.act (.txn .commitBottom)) = some s') :
    s.view.step (.txn .commitBottom) = some s'.view ∧ s'.Done := by
  obtain ⟨hidle, hstep⟩ := ite_none_right_eq_some.mp hstep
  obtain ⟨m, hm, ⟨⟩⟩ := map_eq_some_iff.mp hstep
  rw [view_of_idle hidle, hm]
  obtain ⟨mgr, hmgr, heq⟩ := bind_eq_some_iff.mp hm
  obtain ⟨hcond, ⟨⟩⟩ := ite_none_right_eq_some.mp heq
  obtain ⟨-, hfailed⟩ := Bool.and_eq_true_iff.mp hcond
  obtain ⟨i, rest, t, hqueue, hu, hstage, hcase⟩ := quiet_commitBottom hmgr
  obtain ⟨deleted, -, rfl, -⟩ | ⟨-, rfl⟩ := hcase
  · refine ⟨by simp [view, settled, hqueue, hu.txn, Meta.afterTxn, Meta.commitBottom], ?_⟩
    intro p hp
    simp only [hqueue, head?_cons, Option.map_some, mem_def, Option.some.injEq] at hp
    subst hp
    exact ⟨_, setTxn_self, .inl rfl⟩
  · cases hfailed

/-- The transaction of the bottom half after an action of a transaction. -/
theorem Done.txn (h : s.Done) (hinv : s.view.Inv) {b : Action} {m : Meta β}
    (hmgr : s.mgr.step b = some m.mgr) : Done ⟨m, s.bottom⟩ := by
  intro p hp
  obtain ⟨u, hu, hdone⟩ := h p hp
  obtain ⟨u', hu', -, hmoves⟩ := @Meta.Inv.moves_step _ s.view _ p.1 b hinv hmgr u hu
  refine ⟨u', hu', ?_⟩
  rcases hmoves with hsame | hmoves
  · rw [hsame]
    exact hdone
  · exact done_of_moves hmoves hdone

theorem modify_view {n : ℕ} {p : ℕ × ℕ} (hp : p ∈ s.bottom) :
    (s.entryList.modify n (·.commit p.1 p.2)).map s.settled = s.entryList.map s.settled := by
  refine ext_getElem? fun k => ?_
  rw [getElem?_map, getElem?_map, getElem?_modify, Option.map_eq_map, Option.map_map]
  congr 1
  funext e
  by_cases hn : n = k <;> simp [hn, settled_commit hp]

/-- **Every step is one of the system that commits the entries at once, or none.** -/
theorem view_step (h : s.Done) (hinv : s.view.Inv) (hstep : s.step a = some s') :
    s'.Done ∧ (s'.view = s.view ∨ ∃ b, b.cleans = false ∧ s.view.step b = some s'.view) := by
  have htxn : ∀ {b : Action}, (s.toMeta.step (.txn b)).map (⟨·, s.bottom⟩) = some s' →
      b ≠ .commitBottom →
      s'.Done ∧ (s'.view = s.view ∨ ∃ b, b.cleans = false ∧ s.view.step b = some s'.view) := by
    intro b hstep hb
    obtain ⟨m, hm, ⟨⟩⟩ := map_eq_some_iff.mp hstep
    obtain ⟨hmgr, hview⟩ := txn_view hm hb
    exact ⟨h.txn hinv hmgr, .inr ⟨_, rfl, hview⟩⟩
  cases a with
  | commitEntry n =>
    obtain ⟨p, hp, ⟨⟩⟩ := map_eq_some_iff.mp hstep
    refine ⟨h, .inl ?_⟩
    show ({ s.toMeta with entryList := _ } : Meta β) = _
    exact congrArg (fun list => ({ s.toMeta with entryList := list } : Meta β)) (modify_view hp)
  | act a =>
    cases a with
    | txn b =>
      cases b with
      | commitBottom =>
        obtain ⟨hview, hdone⟩ := commitBottom_view hstep
        exact ⟨hdone, .inr ⟨_, rfl, hview⟩⟩
      | finishTxn i => exact htxn (ite_none_right_eq_some.mp hstep).2 nofun
      | _ => exact htxn hstep nofun
    | addEntry i conflictType data =>
      obtain ⟨t, ht, heq⟩ := bind_eq_some_iff.mp hstep
      obtain ⟨hstage, ⟨⟩⟩ := ite_none_right_eq_some.mp heq
      refine ⟨h.write, (write_view (h.addEntry_settled ht hstage)).imp_right fun hview => ?_⟩
      refine ⟨.addEntry i conflictType data, rfl, ?_⟩
      rw [hview]
      exact bind_eq_some_iff.mpr ⟨t, ht, if_pos hstage⟩
    | dropEntry i conflictType data =>
      obtain ⟨t, ht, heq⟩ := bind_eq_some_iff.mp hstep
      obtain ⟨hstage, ⟨⟩⟩ := ite_none_right_eq_some.mp heq
      refine ⟨h.write, (write_view (h.dropEntry_settled ht hstage)).imp_right fun hview => ?_⟩
      refine ⟨.dropEntry i conflictType data, rfl, ?_⟩
      rw [hview]
      exact bind_eq_some_iff.mpr ⟨t, ht, if_pos hstage⟩
    | deleteEntry i =>
      obtain ⟨m, hm, ⟨⟩⟩ := map_eq_some_iff.mp hstep
      obtain ⟨t, ht, heq⟩ := bind_eq_some_iff.mp hm
      obtain ⟨hstage, ⟨⟩⟩ := ite_none_right_eq_some.mp heq
      refine ⟨h, .inr ⟨.deleteEntry i, rfl, bind_eq_some_iff.mpr ⟨t, ht, (if_pos hstage).trans ?_⟩⟩⟩
      exact congrArg (fun list => some ({ s.toMeta with entryList := list } : Meta β))
        deleteEntry_settled.symm
    | getCleanupScanTS checkpointedTs =>
      cases hstep
      exact ⟨h, .inr ⟨.getCleanupScanTS checkpointedTs, rfl, rfl⟩⟩
    | pickCleanup visibleTs => cases hstep

end Simulation

/-! ## Exclusion -/

/-- The shape of the list, and what a rollback leaves of it, with the entries of the transaction in
its bottom half taken for committed. -/
structure Exclusion (s : Bottoming β) : Prop where
  shaped : s.view.Shaped
  restored : ∀ i s', s.step (.act (.txn (.abort i))) = some s' ∨
    s.step (.act (.txn (.rollback i))) = some s' → ¬ HoldsNone i s.view.entryList →
    standing s'.roll s'.view.entryList = s.before i
  removed : ∀ i s', s.step (.act (.deleteEntry i)) = some s' →
    standing s'.roll s'.view.entryList = standing s.roll s.view.entryList ∧
      s'.entryList = s.entryList.filter (·.txnId ≠ i)

variable {s : Bottoming β}

theorem inv_of_reachable (h : (bottoming β).Reachable s) :
    s.Done ∧ s.view.Inv ∧ s.view.Restores := by
  refine @TransitionSystem.Reachable.invariant _ _ _
    (fun s : Bottoming β => s.Done ∧ s.view.Inv ∧ s.view.Restores) ?_ ?_ _ h
  · rintro s ⟨type, rfl⟩
    exact ⟨nofun, .start type, nofun⟩
  · rintro s a s' ⟨hdone, hinv, hrestores⟩ hstep
    obtain ⟨hdone', hview | ⟨b, hb, hview⟩⟩ := view_step hdone hinv hstep
    · rw [hview]
      exact ⟨hdone', hinv, hrestores⟩
    · exact ⟨hdone', hinv.step hview, hrestores.step hinv hb hview⟩

end Bottoming

/-- **Write exclusion**: in every state of every interleaving. -/
theorem exclusion_of_reachable {s : Bottoming β} (hs : (bottoming β).Reachable s) :
    s.Exclusion := by
  obtain ⟨-, hinv, hrestores⟩ := Bottoming.inv_of_reachable hs
  refine ⟨hinv.shaped, ?_, ?_⟩
  · rintro i s' (hstep | hstep) hheld
    all_goals
      obtain ⟨m, hm, ⟨⟩⟩ := map_eq_some_iff.mp hstep
      obtain ⟨-, hview⟩ := Bottoming.txn_view hm nofun
    · exact hrestores.standing_rollback hinv (.inl rfl) hview hheld
    · exact hrestores.standing_rollback hinv (.inr rfl) hview hheld
  · intro i s' hstep
    obtain ⟨m, hm, ⟨⟩⟩ := map_eq_some_iff.mp hstep
    obtain ⟨t, ht, heq⟩ := bind_eq_some_iff.mp hm
    obtain ⟨hstage, ⟨⟩⟩ := ite_none_right_eq_some.mp heq
    refine ⟨?_, rfl⟩
    show standing s.roll ((deleteEntry i s.entryList).map s.settled) = _
    rw [Bottoming.deleteEntry_settled]
    exact standing_deleteEntry hinv.chain (hinv.roll_of_delete ht hstage)

/-! ## Runs -/

/-- Uncommitted entries are those of one transaction. -/
def Meta.Exclusive (s : Meta β) : Prop :=
  ∀ e ∈ s.entryList, ∀ f ∈ s.entryList, e.committed = false → f.committed = false →
    e.txnId = f.txnId

/-- A transaction adds an entry and begins to roll back, and another one adds its entry. -/
def overtakingRun : List (BottomingAction ℕ) :=
  [.act (.txn (.beginTxn ⟨∅, []⟩)), .act (.txn (.beginTxn ⟨∅, []⟩)), .act (.addEntry 1 .error 7),
    .act (.txn (.abort 1)), .act (.addEntry 2 .error 8)]

/-- The commit of a transaction up to the begin of its bottom half. -/
def bottomRun (i : ℕ) : List (BottomingAction ℕ) :=
  [.act (.txn (.getCommitTimeStampW i)), .act (.txn (.setTxnCommitting i)),
    .act (.txn (.prepareCommit1 i)), .act (.txn (.checkConflict i)), .act (.txn (.sendToWAL i)),
    .act (.txn .commitBottom)]

/-- A transaction creates the name and commits; another one drops it and creates it again. -/
def recreateRun : List (BottomingAction ℕ) :=
  [.act (.txn (.beginTxn ⟨∅, []⟩)), .act (.addEntry 1 .error 7)] ++ bottomRun 1 ++
    [.commitEntry 0, .act (.txn (.finishTxn 1)), .act (.txn (.beginTxn ⟨∅, []⟩)),
      .act (.dropEntry 2 .error 7), .act (.addEntry 2 .error 8)]

/-- The second one commits, and before its drop marker has a time stamp a third one drops its
entry. -/
def bottomHalfRun : List (BottomingAction ℕ) :=
  recreateRun ++ bottomRun 2 ++
    [.commitEntry 0, .act (.txn (.beginTxn ⟨∅, []⟩)), .act (.dropEntry 3 .error 8)]

/-- Both have uncommitted entries then, and the end of the rollback does not bring back the empty
list that the first one found. In the bottom half of a commit there is an uncommitted entry behind a
committed one, and a third transaction has one too. -/
theorem not_exclusive_overtakingRun :
    (∃ s s', (bottoming ℕ).Reachable s ∧
      (bottoming ℕ).run ⟨.start .table, none⟩ overtakingRun = some s ∧
      s.before 1 = [] ∧ ¬ s.Exclusive ∧
      (bottoming ℕ).step s (.act (.deleteEntry 1)) = some s' ∧
      s'.entryList = [⟨2, none, false, 8⟩]) ∧
    ∃ s, (bottoming ℕ).Reachable s ∧
      (bottoming ℕ).run ⟨.start .table, none⟩ bottomHalfRun = some s ∧
      s.entryList = [⟨3, none, true, 8⟩, ⟨2, some 5, false, 8⟩, ⟨2, none, true, 7⟩,
        ⟨1, some 2, false, 7⟩] ∧
      s.roll 2 = false ∧ s.roll 3 = false ∧ ¬ s.Exclusive := by
  refine ⟨⟨_, _, .of_run overtakingRun (.initial ⟨.table, rfl⟩) rfl, rfl, rfl, fun h => ?_, rfl,
    rfl⟩, _, .of_run bottomHalfRun (.initial ⟨.table, rfl⟩) rfl, rfl, rfl, rfl, rfl, fun h => ?_⟩
  · have hsame := h ⟨2, none, false, 8⟩ (.head _) ⟨1, none, false, 7⟩ (.tail _ (.head _)) rfl rfl
    cases hsame
  · have hsame := h ⟨3, none, true, 8⟩ (.head _) ⟨2, none, true, 7⟩
      (.tail _ (.tail _ (.head _))) rfl rfl
    cases hsame

/-- The list is restored when the second transaction is rolled back. -/
theorem exclusion_recreateRun : ∃ s s', (bottoming ℕ).run ⟨.start .table, none⟩ recreateRun =
    some s ∧ s.entryList = [⟨2, none, false, 8⟩, ⟨2, none, true, 7⟩, ⟨1, some 2, false, 7⟩] ∧
    (bottoming ℕ).step s (.act (.txn (.abort 2))) = some s' ∧ s.Exclusion ∧
    standing s'.roll s'.view.entryList = [⟨1, some 2, false, 7⟩] :=
  ⟨_, _, rfl, rfl, rfl, exclusion_of_reachable (.of_run recreateRun (.initial ⟨.table, rfl⟩) rfl),
    rfl⟩

end Infinity.Catalog
