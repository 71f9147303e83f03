import Infinity.Buffer.Accounting

/-! # Runs of the buffer manager

Every method keeps the invariant of the manager, and raises only errors that its caller can see
coming.
-/

namespace Infinity.Buffer

open Foundations Function

namespace BufferManager

variable {P D F : Type} {S : Setup P D F} {s s' : BufferManager D F} {i : ℕ} {v : View D F}

/-! ## Methods on one object -/

/-- The invariant after a method that changed one object and not the memory in use. -/
theorem Inv.changeInPlace (h : Inv S s) (hi : i ∈ s.bufferMap)
    (hview : s'.view = update s.view i v) (hpresent : v.present = (s.view i).present)
    (hv : v.Tracked (S.worker i))
    (hcost : cost S i v = cost S i (s.view i))
    (hmemory : s'.currentMemorySize = s.currentMemorySize) : Inv S s' := by
  apply h.change hi hview (hpresent.trans (mem_bufferMap_iff.mp hi)) hv
  · rw [hmemory, hcost]
  · rw [hmemory]
    exact h.limit

theorem cost_congr {v' : View D F} (h : v.slot.obj.status = v'.slot.obj.status) :
    cost S i v = cost S i v' := by
  apply if_congr _ rfl rfl
  unfold BufferObj.InMemory
  rw [h]

/-- What `Load` achieves. -/
structure LoadedBy (S : Setup P D F) (s s' : BufferManager D F) (i : ℕ) : Prop where
  inv : Inv S s'
  present : i ∈ s'.bufferMap
  status : (s'.slot i).obj.status = .loaded
  contents : ∀ j, (s'.slot j).contents = (s.slot j).contents

/-- The errors of `Load`. -/
def LoadError (S : Setup P D F) (s : BufferManager D F) (i : ℕ) (e : BufferError) : Prop :=
  e = .outOfMemory ∨ e = .invalidStatus ∧ (s.slot i).obj.status = .clean ∨
    e = .readError ∧ ((S.worker i).Inverse → (s.slot i).contents = none)

section

variable (h : Inv S s) (hi : i ∈ s.bufferMap)
include h hi

theorem load_outcome (busy : List ℕ) :
    Outcome (s.load S i busy) (fun s' => LoadedBy S s s' i) (LoadError S s i) := by
  have htracked := h.tracked hi
  unfold load
  by_cases hs : (s.slot i).obj.status = .clean
  · -- a cleaned object is refused before its files are looked at
    have hroom : s.makeRoom S i busy = .ok s := by
      unfold makeRoom
      rw [hs]
    have hload : (s.slot i).obj.load (S.worker i) (s.slot i).files = .error .invalidStatus := by
      unfold BufferObj.load
      rw [hs]
    rw [hroom]
    show Outcome ((s.slot i).obj.load (S.worker i) (s.slot i).files >>= _) _ _
    rw [hload]
    exact .inr (.inl ⟨rfl, hs⟩)
  · apply ((makeRoom_outcome h hi hs).imp (fun _ => id) fun _ he => .inl he).bind
    rintro s' ⟨s₀, hroom⟩
    have hslot : s'.slot i = s.slot i := by
      have hview := congrFun hroom.view i
      rw [update_self] at hview
      exact congrArg View.slot hview
    rw [hslot]
    apply (htracked.load.imp (fun _ => id) fun _ he => .inr he).bind
    intro o hv
    have hstatus : o.status = .loaded := hv.status_of_handles (Nat.succ_pos _)
    have hview : (s'.setSlot i { s.slot i with obj := o, handles := (s.slot i).handles + 1 }).view =
        update s₀.view i ((s.view i).afterLoad o) := by
      rw [view_setSlot, hroom.view, update_self, update_idem]
      rfl
    have hi₀ : i ∈ s₀.bufferMap := by
      rw [mem_bufferMap_iff, hroom.same]
      exact mem_bufferMap_iff.mp hi
    have hinv := hroom.evicted.inv.change hi₀ hview (mem_bufferMap_iff.mp hi) hv (by
      rw [hroom.same]
      rw [show cost S i ((s.view i).afterLoad o) = S.size i from if_pos (.inl hstatus)]
      exact hroom.memory) hroom.limit
    have hself := congrFun hview i
    rw [update_self] at hself
    constructor
    · exact hinv
    · rw [mem_bufferMap_iff, hself]
      exact mem_bufferMap_iff.mp hi
    · exact (congrArg (·.slot.obj.status) hself).trans hstatus
    · intro j
      rcases eq_or_ne j i with rfl | hj
      · exact congrArg (·.slot.contents) hself
      · have hother := congrFun hview j
        rw [update_of_ne hj] at hother
        exact (congrArg (·.slot.contents) hother).trans (hroom.evicted.contents j)

section

variable (hpos : 0 < (s.slot i).handles)
include hpos

theorem loadInner_outcome : Outcome (s.loadInner i) (Inv S) (fun _ => False) := by
  have htracked := h.tracked hi
  have hs : (s.slot i).obj.status = .loaded := htracked.status_of_handles hpos
  apply (htracked.loadInner hpos).bind
  intro o hv
  have hstatus : o.status = .loaded := hv.status_of_handles (Nat.succ_pos _)
  refine h.changeInPlace hi (v := (s.view i).afterLoadInner o) (view_setSlot _) rfl hv ?_ rfl
  exact (if_pos (.inl hstatus)).trans (if_pos (.inl hs)).symm

theorem unloadInner_outcome : Outcome (s.unloadInner i) (Inv S) (fun _ => False) := by
  have htracked := h.tracked hi
  have hs : (s.slot i).obj.status = .loaded := htracked.status_of_handles hpos
  obtain ⟨hgc, hmap⟩ := htracked.notQueued (by simp [view, hs])
  apply (htracked.unloadInner hpos).bind
  rintro o ⟨hmemory, hv⟩
  have hnotin : i ∉ s.gcMap := by simpa [view] using hmap
  refine h.changeInPlace hi (v := (s.view i).afterUnloadInner o) ?_ rfl hv ?_ ?_
  · split
    next hlast =>
      rw [view_pushGCQueue (s := s.setSlot i _) hnotin, view_setSlot]
      simp [View.afterUnloadInner, hgc, hlast]
      rfl
    next hmore =>
      rw [view_setSlot]
      simp [View.afterUnloadInner, hgc, hmap, hmore]
      rfl
  · exact (if_pos hmemory).trans (if_pos (.inl hs)).symm
  · split <;> rfl

theorem mutate_outcome (d : D) : Outcome (s.mutate i d) (Inv S) (fun _ => False) := by
  have htracked := h.tracked hi
  have hs : (s.slot i).obj.status = .loaded := htracked.status_of_handles hpos
  have hcost : cost S i ((s.view i).afterMutate d) = cost S i (s.view i) := rfl
  have hv := htracked.mutate hpos d
  unfold mutate
  dsimp only
  split
  next htype =>
    have hmem : (s.view i).temp := htracked.temp.mpr ⟨htype, by simp [view, hs]⟩
    refine (removeTemp_outcome hmem (htracked.cleanTemp_eq_false hmem) (Q :=
      fun s' => s'.view = update s.view i { s.view i with temp := false, cleanTemp := true } ∧
      s'.currentMemorySize = s.currentMemorySize) ⟨view_removeTemp, rfl⟩).bind ?_
    rintro s' ⟨hview, hmemory⟩
    refine h.changeInPlace hi (v := (s.view i).afterMutate d) ?_ rfl hv hcost hmemory
    rw [view_setSlot, hview]
    simp [View.afterMutate, show (s.view i).slot.obj.type = .temp from htype]
    rfl
  next htype =>
    refine h.changeInPlace hi (v := (s.view i).afterMutate d) ?_ rfl hv hcost rfl
    have hmem := htracked.temp_eq_false fun hmem => htype hmem.1
    rw [view_setSlot]
    simp [View.afterMutate, hmem, show (s.view i).slot.obj.type ≠ .temp from htype]
    rfl

end

theorem save_outcome (p : P) : Outcome (s.save S i p) (Inv S) (fun e => e = .invalidBufferStatus ∨
      e = .moveTempNotFound ∧ (s.slot i).obj.type = .temp ∧ (s.slot i).obj.status = .clean) := by
  have htracked := h.tracked hi
  -- the rest of `Save`, after `MoveTemp`
  have hrest : ∀ s₁ : BufferManager D F,
      ((s.slot i).obj.type = .temp → (s.slot i).obj.status ≠ .clean) →
      s₁.view = update s.view i { s.view i with temp := false } →
      s₁.currentMemorySize = s.currentMemorySize →
      Outcome ((s.slot i).obj.save (S.worker i) p (s.slot i).files >>= fun r =>
        pure (s₁.setSlot i { s.slot i with obj := r.1, files := r.2, saved := true })) (Inv S)
        (fun e => e = .invalidBufferStatus ∨ e = .moveTempNotFound ∧
          (s.slot i).obj.type = .temp ∧ (s.slot i).obj.status = .clean) := by
    intro s₁ htemp hview hmemory
    apply ((htracked.save p htemp).imp (fun _ => id) fun _ he => .inl he).bind
    rintro ⟨o, fs⟩ ⟨hstatus, hv⟩
    refine h.changeInPlace hi (v := (s.view i).afterSave o fs) ?_ rfl hv ?_ hmemory
    · rw [view_setSlot, hview]
      simp [View.afterSave]
      rfl
    · exact cost_congr hstatus
  unfold save
  dsimp only
  split
  next htype =>
    by_cases hs : (s.slot i).obj.status = .clean
    · -- the object left `temp_set_` when it was picked
      have hnot : i ∉ s.tempSet := by
        intro hmem
        exact (htracked.temp.mp (decide_eq_true hmem)).2 hs
      unfold moveTemp
      rw [if_pos hnot]
      exact .inr ⟨rfl, htype, hs⟩
    · refine (moveTemp_outcome (htracked.temp.mpr ⟨htype, hs⟩)
        (Q := fun s' => s'.view = update s.view i { s.view i with temp := false } ∧
          s'.currentMemorySize = s.currentMemorySize) ⟨view_moveTemp, rfl⟩).bind ?_
      rintro s₁ ⟨hview, hmemory⟩
      exact hrest s₁ (fun _ => hs) hview hmemory
  next htype =>
    have hmem := htracked.temp_eq_false fun hmem => htype hmem.1
    refine hrest s (fun h => absurd h htype) ?_ rfl
    rw [← hmem, update_eq_self]

end

theorem view_addCleanList : view { s with cleanList := s.cleanList ++ [i] } =
      update s.view i { s.view i with clean := (s.view i).clean + 1 } := by
  funext j
  rcases eq_or_ne j i with rfl | hj
  · simp [view]
  · simp [view, hj, Ne.symm hj]

theorem addToCleanList_outcome (h : Inv S s) (hi : i ∈ s.bufferMap)
    (hs : (s.slot i).obj.status ≠ .loaded) :
      Outcome (s.addToCleanList S i ((s.slot i).obj.status = .unloaded)) (fun s₁ =>
      s₁.view = update s.view i
      { s.view i with gc := 0, inGcMap := false, clean := (s.view i).clean + 1 } ∧
      s₁.currentMemorySize + cost S i (s.view i) = s.currentMemorySize) (fun _ => False) := by
  have htracked := h.tracked hi
  have hle := h.cost_le hi
  unfold addToCleanList
  by_cases hunloaded : (s.slot i).obj.status = .unloaded
  · have hcost : cost S i (s.view i) = S.size i := if_pos (.inr hunloaded)
    have hgc : (s.view i).gc = 1 := htracked.gc.trans (if_pos hunloaded)
    rw [if_pos (decide_eq_true hunloaded)]
    apply removeFromGCQueue_outcome
    · exact htracked.inGcMap.mpr hunloaded
    · refine ⟨?_, ?_⟩
      · rw [view_dequeue, view_giveBack, view_addCleanList]
        simp [hgc]
      · show s.currentMemorySize - S.size i + _ = _
        omega
  · obtain ⟨hgc, hmap⟩ := htracked.notQueued hunloaded
    have hcost : cost S i (s.view i) = 0 := if_neg (by
      rintro (hloaded | hunloaded')
      · exact hs hloaded
      · exact hunloaded hunloaded')
    rw [if_neg (by simpa using hunloaded)]
    refine ⟨?_, by rw [hcost, add_zero]⟩
    rw [view_addCleanList, ← hgc, ← hmap]

theorem pickForCleanup_outcome (h : Inv S s) (hi : i ∈ s.bufferMap) :
    Outcome (s.pickForCleanup S i) (Inv S) (fun e => e = .invalidStatus) := by
  have htracked := h.tracked hi
  have hlimit := h.limit
  apply htracked.pickForCleanup.bind
  rintro o ⟨hstatus, hclean, hloaded, hv⟩
  have hcost : cost S i ((s.view i).afterPick o) = 0 := if_neg (by
    show ¬ o.InMemory
    simp [BufferObj.InMemory, hstatus])
  apply ((addToCleanList_outcome h hi hloaded).imp (fun _ => id) fun _ => False.elim).bind
  rintro s₁ ⟨hview, hmemory⟩
  have hdone : ∀ X : BufferManager D F, X.currentMemorySize = s₁.currentMemorySize →
      X.view = update s.view i ((s.view i).afterPick o) → Inv S X := by
    intro X hX hXview
    apply h.change hi hXview (mem_bufferMap_iff.mp hi) hv
    · rw [hX, hmemory, hcost, add_zero]
    · omega
  apply Outcome.ite
  · intro (htype : (s.view i).slot.obj.type = .temp)
    have hmem : (s.view i).temp := htracked.temp.mpr ⟨htype, hclean⟩
    have hnot := htracked.cleanTemp_eq_false hmem
    apply removeTemp_outcome
    · rw [view_setSlot, hview]
      simpa using hmem
    · rw [view_setSlot, hview]
      simpa using hnot
    · refine hdone _ rfl ?_
      rw [view_removeTemp, view_setSlot, hview]
      simp [View.afterPick, htype]
      rfl
  · intro (htype : (s.view i).slot.obj.type ≠ .temp)
    have hmem := htracked.temp_eq_false fun hmem => htype hmem.1
    refine hdone (s₁.setSlot i _) rfl ?_
    rw [view_setSlot, hview]
    simp [View.afterPick, htype, hmem]
    rfl

/-! ## Cleaning up -/

/-- The state after `RemoveClean`. -/
def cleaned (s : BufferManager D F) : BufferManager D F := { s with
    slot := fun i => { s.slot i with files := s.cleanedFiles i }
    cleanList := []
    cleanTempSet := ∅
    gcList := s.gcList.diff s.cleanList
    gcMap := s.gcMap \ s.cleanList.toFinset
    bufferMap := s.bufferMap \ s.cleanList.toFinset }

theorem Inv.view_cleaned_of_mem (h : Inv S s) (hi : i ∈ s.cleanList) :
    (s.cleaned.view i).Absent := by
  obtain ⟨hmap, hstatus⟩ := h.mem_cleanList_iff.mp hi
  have htracked := h.tracked hmap
  have hgc : s.gcList.count i = 0 := (htracked.notQueued (by simp [view, hstatus])).1
  constructor
  · show (s.gcList.diff s.cleanList).count i = 0
    rw [List.count_diff, hgc, Nat.zero_sub]
  · simp [view, BufferManager.cleaned, hi]
  · rfl
  · exact htracked.temp_eq_false fun hmem => hmem.2 hstatus
  · rfl

theorem view_cleaned_of_notMem (hi : i ∉ s.cleanList) :
    s.cleaned.view i = (s.view i).afterRemoveClean := by
  have hcount : s.cleanList.count i = 0 := List.count_eq_zero_of_not_mem hi
  simp [view, BufferManager.cleaned, View.afterRemoveClean, cleanedFiles, hi, hcount,
    List.count_diff]
  rfl

theorem Inv.cleaned (h : Inv S s) : Inv S s.cleaned := by
  constructor
  · intro i
    by_cases hi : i ∈ s.cleanList
    · refine ⟨fun hpresent => ?_, fun _ => h.view_cleaned_of_mem hi⟩
      simp [view, BufferManager.cleaned, hi] at hpresent
    · rw [view_cleaned_of_notMem hi]
      exact ⟨fun hpresent => ((h.valid i).tracked hpresent).removeClean,
        fun hpresent => { (h.valid i).absent hpresent with cleanTemp := rfl }⟩
  · show s.currentMemorySize = ∑ i ∈ s.bufferMap \ s.cleanList.toFinset, _
    rw [h.memory, ← Finset.sum_subset (Finset.sdiff_subset (t := s.cleanList.toFinset))]
    · apply Finset.sum_congr rfl
      intro i hi
      exact cost_congr rfl
    · -- what is removed was not in memory
      intro i hi hnot
      have hmem : i ∈ s.cleanList := by simpa [hi] using hnot
      have hstatus : (s.view i).slot.obj.status = .clean := (h.mem_cleanList_iff.mp hmem).2
      apply if_neg
      simp [BufferObj.InMemory, hstatus]
  · exact h.limit

theorem removeClean_outcome (h : Inv S s) : Outcome s.removeClean (Inv S) (fun _ => False) := by
  have hstatus : ¬ ∃ i ∈ s.cleanList, (s.slot i).obj.status ≠ .clean := by
    rintro ⟨i, hi, hne⟩
    exact hne (h.mem_cleanList_iff.mp hi).2
  have hdata : ¬ ∃ i ∈ s.cleanList, (s.slot i).obj.data.isSome := by
    rintro ⟨i, hi, hsome⟩
    obtain ⟨hmap, hclean⟩ := h.mem_cleanList_iff.mp hi
    rcases (h.tracked hmap).data.mp hsome with hloaded | hunloaded
    · cases hclean.symm.trans hloaded
    · cases hclean.symm.trans hunloaded
  have hspill : ¬ ∃ i ∈ s.cleanTempSet, (s.slot i).obj.type ≠ .temp ∧
      (s.slot i).files.spill.isNone := by
    rintro ⟨i, hi, -, hnone⟩
    have hct : (s.view i).cleanTemp := decide_eq_true hi
    by_cases hmap : i ∈ s.bufferMap
    · have hsome : (s.slot i).files.spill.isSome := ((h.tracked hmap).cleanTemp hct).2
      simp_all
    · rw [(h.absent hmap).cleanTemp] at hct
      cases hct
  have hremoved : s.cleanList.Nodup ∧ ∀ i ∈ s.cleanList, i ∈ s.bufferMap :=
    ⟨h.nodup_cleanList, fun i hi => (h.mem_cleanList_iff.mp hi).1⟩
  unfold removeClean
  rw [if_neg hstatus, if_neg hdata, if_neg hspill, if_neg (not_not_intro hremoved)]
  exact h.cleaned

/-! ## New objects -/

theorem view_insert (t : Slot D F) :
    view { s.setSlot i t with bufferMap := insert i s.bufferMap } =
      update s.view i { s.view i with present := true, slot := t } := by
  funext j
  rcases eq_or_ne j i with rfl | hj
  · simp [view, setSlot]
    exact ⟨rfl, rfl, rfl⟩
  · simp [view, setSlot, hj]
    exact ⟨rfl, rfl, rfl⟩

theorem Inv.insert (h : Inv S s) (hi : i ∉ s.bufferMap) (isEphemeral : Bool) {t : Slot D F}
    (ht : t = ((s.view i).afterMake (S.worker i) isEphemeral).slot) :
    Inv S { s.setSlot i t with bufferMap := insert i s.bufferMap } := by
  have hview : view { s.setSlot i t with bufferMap := Insert.insert i s.bufferMap } =
      update s.view i ((s.view i).afterMake (S.worker i) isEphemeral) := by
    rw [view_insert, ht]
    rfl
  have hself := congrFun hview i
  rw [update_self] at hself
  have hother :
      ∀ j, j ≠ i → view { s.setSlot i t with bufferMap := Insert.insert i s.bufferMap } j =
      s.view j := by
    intro j hj
    rw [hview, update_of_ne hj]
  constructor
  · intro j
    rcases eq_or_ne j i with rfl | hj
    · rw [hself]
      exact ⟨fun _ => (h.absent hi).make isEphemeral, nofun⟩
    · rw [hother j hj]
      exact h.valid j
  · -- a new object is not in memory
    have hzero : cost S i ((s.view i).afterMake (S.worker i) isEphemeral) = 0 := by
      apply if_neg
      cases isEphemeral <;> simp [BufferObj.InMemory, View.afterMake, BufferObj.make]
    show s.currentMemorySize = ∑ j ∈ Insert.insert i s.bufferMap, _
    rw [Finset.sum_insert hi, hself, hzero, zero_add, h.memory]
    apply Finset.sum_congr rfl
    intro j hj
    rw [hother j (ne_of_mem_of_not_mem hj hi)]
  · exact h.limit

theorem allocateBufferObject_outcome (h : Inv S s) :
    Outcome (s.allocateBufferObject S i) (Inv S) (fun e => e = .alreadyExists) := by
  apply Outcome.ite
  · intro _
    rfl
  · intro hi
    exact h.insert hi true rfl

theorem getBufferObject_outcome (h : Inv S s) :
    Outcome (s.getBufferObject S i) (Inv S) (fun _ => False) := by
  apply Outcome.ite
  · intro _
    exact h
  · intro hi
    exact h.insert hi false rfl

/-! ## Every method -/

def Allowed (S : Setup P D F) (s : BufferManager D F) : BufferAction P D → BufferError → Prop
  | .allocateBufferObject _, e => e = .alreadyExists
  | .load i _, e => LoadError S s i e
  | .save i _, e => e = .invalidBufferStatus ∨
    e = .moveTempNotFound ∧ (s.slot i).obj.type = .temp ∧ (s.slot i).obj.status = .clean
  | .pickForCleanup _, e => e = .invalidStatus
  | _, _ => False

/-- **A call keeps the invariant** or raises one of the errors it is allowed to raise. -/
theorem exec_outcome (h : Inv S s) {a : BufferAction P D} (ha : s.Possible a) :
    Outcome (s.exec S a) (Inv S) (Allowed S s a) := by
  cases a with
  | allocateBufferObject i => exact allocateBufferObject_outcome h
  | getBufferObject i => exact getBufferObject_outcome h
  | load i busy => exact (load_outcome h ha busy).imp (fun _ hl => hl.inv) fun _ => id
  | copyHandle i => exact loadInner_outcome h ha.1 ha.2
  | releaseHandle i => exact unloadInner_outcome h ha.1 ha.2
  | mutate i d => exact mutate_outcome h ha.1 ha.2 d
  | save i p => exact save_outcome h ha p
  | pickForCleanup i => exact pickForCleanup_outcome h ha
  | removeClean => exact removeClean_outcome h

theorem Inv.start {slot : ℕ → Slot D F} : Inv S (BufferManager.start slot) where
  valid _ := ⟨nofun, fun _ => ⟨rfl, rfl, rfl, rfl, rfl⟩⟩
  memory := rfl
  limit := Nat.zero_le _

theorem Inv.of_reachable (h : (buffering S).Reachable s) : Inv S s := by
  apply h.invariant
  · rintro _ ⟨slot, -, rfl⟩
    exact .start
  · intro s a s' hinv hs
    change (if s.Possible a then (s.exec S a).toOption else none) = some s' at hs
    split at hs
    next ha =>
      cases hexec : s.exec S a with
      | error e =>
        rw [hexec] at hs
        cases hs
      | ok s₁ =>
        rw [hexec] at hs
        cases hs
        exact (exec_outcome hinv ha).of_eq_ok hexec
    · cases hs

end BufferManager

end Infinity.Buffer
