import Infinity.Buffer.Local

/-! # The accounting of the buffer manager

The invariant of the manager: the view of every path is valid, and the memory in use is the sum of
the sizes of the objects in memory, which is within the limit. A method changes the view of one
object, after those that `RequestSpace` frees; so each is proved from the lemma about that view.

* `requestSpace_outcome`: what `RequestSpace` does to the other objects.
* `makeRoom_outcome`: what a method finds that has asked for space.
-/

namespace Infinity.Buffer

open Foundations List Function

namespace BufferManager

variable {P D F : Type} {S : Setup P D F} {s s' : BufferManager D F} {i : ℕ} {l : List ℕ}
  {busy : List ℕ} {needSize : ℕ}

def view (s : BufferManager D F) (i : ℕ) : View D F where
  present := i ∈ s.bufferMap
  slot := s.slot i
  gc := s.gcList.count i
  inGcMap := i ∈ s.gcMap
  clean := s.cleanList.count i
  temp := i ∈ s.tempSet
  cleanTemp := i ∈ s.cleanTempSet

def cost (S : Setup P D F) (i : ℕ) (v : View D F) : ℕ := if v.slot.obj.InMemory then S.size i else 0

/-- What holds in every reachable state. -/
structure Inv (S : Setup P D F) (s : BufferManager D F) : Prop where
  valid : ∀ i, (s.view i).Valid (S.worker i)
  memory : s.currentMemorySize = ∑ i ∈ s.bufferMap, cost S i (s.view i)
  limit : s.currentMemorySize ≤ S.memoryLimit

/-! ## Views after an update -/

theorem view_setSlot (t : Slot D F) :
    (s.setSlot i t).view = update s.view i { s.view i with slot := t } := by
  refine eq_update_iff.mpr ⟨?_, fun j hj => ?_⟩
  · simp only [view, setSlot, update_self]
    rfl
  · simp only [view, setSlot, update_of_ne hj]
    rfl

theorem view_addTemp :
    view { s with tempSet := insert i s.tempSet, cleanTempSet := s.cleanTempSet.erase i } =
      update s.view i { s.view i with temp := true, cleanTemp := false } :=
  eq_update_iff.mpr ⟨by simp [view], fun j hj => by simp [view, hj]⟩

theorem view_removeTemp :
    view { s with tempSet := s.tempSet.erase i, cleanTempSet := insert i s.cleanTempSet } =
      update s.view i { s.view i with temp := false, cleanTemp := true } :=
  eq_update_iff.mpr ⟨by simp [view], fun j hj => by simp [view, hj]⟩

theorem view_moveTemp : view { s with tempSet := s.tempSet.erase i } =
      update s.view i { s.view i with temp := false } :=
  eq_update_iff.mpr ⟨by simp [view], fun j hj => by simp [view, hj]⟩

theorem view_dequeue :
    view { s with gcList := s.gcList.erase i, gcMap := s.gcMap.erase i } =
      update s.view i { s.view i with gc := (s.view i).gc - 1, inGcMap := false } :=
  eq_update_iff.mpr ⟨by simp [view], fun j hj => by simp [view, hj, count_erase_of_ne hj]⟩

theorem view_pushGCQueue (hnot : i ∉ s.gcMap) : (s.pushGCQueue i).view =
      update s.view i { s.view i with gc := (s.view i).gc + 1, inGcMap := true } := by
  refine eq_update_iff.mpr ⟨?_, fun j hj => ?_⟩
  · simp [view, pushGCQueue, hnot]
  · simp [view, pushGCQueue, hnot, hj, Ne.symm hj]

theorem view_dropFreed : (s.dropFreed S i).view =
      update s.view i { s.view i with gc := (s.view i).gc - 1, inGcMap := false } :=
  view_dequeue

theorem view_giveBack (size : ℕ) : (s.giveBack size).view = s.view := rfl

/-! ## The sets and the queue do not raise errors on tracked objects -/

section Primitives

variable {Q : BufferManager D F → Prop} {E : BufferError → Prop}

theorem addTemp_outcome (hnot : (s.view i).temp = false)
    (hQ : Q { s with tempSet := insert i s.tempSet, cleanTempSet := s.cleanTempSet.erase i }) :
    Outcome (s.addTemp i) Q E := by
  unfold addTemp
  rw [if_neg (by simpa [view] using hnot)]
  exact hQ

theorem removeTemp_outcome (hmem : (s.view i).temp) (hnot : (s.view i).cleanTemp = false)
    (hQ : Q { s with tempSet := s.tempSet.erase i, cleanTempSet := insert i s.cleanTempSet }) :
    Outcome (s.removeTemp i) Q E := by
  unfold removeTemp
  rw [if_neg (by simpa [view] using hmem), if_neg (by simpa [view] using hnot)]
  exact hQ

theorem moveTemp_outcome (hmem : (s.view i).temp)
    (hQ : Q { s with tempSet := s.tempSet.erase i }) : Outcome (s.moveTemp i) Q E := by
  unfold moveTemp
  rw [if_neg (by simpa [view] using hmem)]
  exact hQ

theorem removeFromGCQueue_outcome (hmem : (s.view i).inGcMap)
    (hQ : Q { s with gcList := s.gcList.erase i, gcMap := s.gcMap.erase i }) :
    Outcome (s.removeFromGCQueue i) Q E := by
  unfold removeFromGCQueue
  rw [if_pos (by simpa [view] using hmem)]
  exact hQ

end Primitives

/-! ## One object changes -/

theorem mem_bufferMap_iff : i ∈ s.bufferMap ↔ (s.view i).present := by
  simp [view]

theorem Inv.tracked (h : Inv S s) (hi : i ∈ s.bufferMap) : (s.view i).Tracked (S.worker i) :=
  (h.valid i).tracked (mem_bufferMap_iff.mp hi)

theorem Inv.absent (h : Inv S s) (hi : i ∉ s.bufferMap) : (s.view i).Absent :=
  (h.valid i).absent (by simpa [view] using hi)

theorem Inv.cost_le (h : Inv S s) (hi : i ∈ s.bufferMap) :
    cost S i (s.view i) ≤ s.currentMemorySize := by
  rw [h.memory]
  exact Finset.single_le_sum (f := fun i => cost S i (s.view i)) (fun _ _ => Nat.zero_le _) hi

/-- **The invariant after the view of one object changed.** -/
theorem Inv.change (h : Inv S s) (hi : i ∈ s.bufferMap) {v : View D F}
    (hview : s'.view = update s.view i v) (hpresent : v.present) (hv : v.Tracked (S.worker i))
    (hmemory : s'.currentMemorySize + cost S i (s.view i) = s.currentMemorySize + cost S i v)
    (hlimit : s'.currentMemorySize ≤ S.memoryLimit) : Inv S s' := by
  have hself : s'.view i = v := by rw [hview, update_self]
  have hother : ∀ j, j ≠ i → s'.view j = s.view j := by
    intro j hj
    rw [hview, update_of_ne hj]
  have hmap : s'.bufferMap = s.bufferMap := by
    ext j
    rcases eq_or_ne j i with rfl | hj
    · simp [mem_bufferMap_iff, hself, hpresent, mem_bufferMap_iff.mp hi]
    · simp [mem_bufferMap_iff, hother j hj]
  constructor
  · intro j
    rcases eq_or_ne j i with rfl | hj
    · rw [hself]
      exact ⟨fun _ => hv, by simp [hpresent]⟩
    · rw [hother j hj]
      exact h.valid j
  · have hrest : ∑ j ∈ s.bufferMap.erase i, cost S j (s'.view j) = ∑ j ∈ s.bufferMap.erase i, cost S
        j (s.view j) := by
      apply Finset.sum_congr rfl
      intro j hj
      rw [hother j (Finset.ne_of_mem_erase hj)]
    have hold := h.memory
    rw [← Finset.add_sum_erase _ _ hi] at hold
    rw [hmap, ← Finset.add_sum_erase _ _ hi, hrest, hself]
    omega
  · exact hlimit

/-! ## Eviction -/

/-- A list in which every element is counted once if it has a property, and not at all otherwise. -/
theorem mem_iff_and_nodup_of_count {p : ℕ → Prop} [DecidablePred p]
    (h : ∀ i, l.count i = if p i then 1 else 0) : (∀ i, i ∈ l ↔ p i) ∧ l.Nodup := by
  constructor
  · intro i
    rw [← one_le_count_iff, h i]
    split <;> simp_all
  · rw [nodup_iff_count_le_one]
    intro i
    rw [h i]
    split <;> omega

section

variable (h : Inv S s)
include h

theorem Inv.count_gcList (i : ℕ) :
    s.gcList.count i = if i ∈ s.bufferMap ∧ (s.slot i).obj.status = .unloaded then 1 else 0 := by
  by_cases hi : i ∈ s.bufferMap
  · simp only [hi, true_and]
    exact (h.tracked hi).gc
  · simp only [hi, false_and, if_false]
    exact (h.absent hi).gc

theorem Inv.count_cleanList (i : ℕ) :
    s.cleanList.count i = if i ∈ s.bufferMap ∧ (s.slot i).obj.status = .clean then 1 else 0 := by
  by_cases hi : i ∈ s.bufferMap
  · simp only [hi, true_and]
    exact (h.tracked hi).clean
  · simp only [hi, false_and, if_false]
    exact (h.absent hi).clean

theorem Inv.mem_gcList_iff : i ∈ s.gcList ↔ i ∈ s.bufferMap ∧ (s.slot i).obj.status = .unloaded :=
  (mem_iff_and_nodup_of_count h.count_gcList).1 i

theorem Inv.nodup_gcList : s.gcList.Nodup := (mem_iff_and_nodup_of_count h.count_gcList).2

theorem Inv.mem_cleanList_iff : i ∈ s.cleanList ↔ i ∈ s.bufferMap ∧
    (s.slot i).obj.status = .clean :=
  (mem_iff_and_nodup_of_count h.count_cleanList).1 i

theorem Inv.nodup_cleanList : s.cleanList.Nodup := (mem_iff_and_nodup_of_count h.count_cleanList).2

end

/-- The state after an object was freed and taken from the queue. -/
structure Freed (S : Setup P D F) (s s' : BufferManager D F) (i : ℕ) : Prop where
  other : ∀ j ≠ i, s'.view j = s.view j
  contents : (s'.slot i).contents = (s.slot i).contents
  gcList : s'.gcList = s.gcList.erase i
  inv : Inv S s'

theorem free_outcome (h : Inv S s) (hi : i ∈ s.bufferMap) (hs : (s.slot i).obj.status = .unloaded) :
    Outcome (s.free S i) (fun s' => Freed S s (s'.dropFreed S i) i) (fun _ => False) := by
  have htracked := h.tracked hi
  have hgc : (s.view i).gc = 1 := htracked.gc.trans (if_pos hs)
  have hcost : cost S i (s.view i) = S.size i := if_pos (.inr hs)
  have hle := h.cost_le hi
  have hlimit := h.limit
  apply (htracked.free hs).bind
  rintro ⟨o, fs⟩ ⟨ho, hv⟩
  -- the two ways through `Free` differ only in `AddTemp`
  have hdone : ∀ X : BufferManager D F, X.currentMemorySize = s.currentMemorySize →
      X.gcList = s.gcList →
      (X.dropFreed S i).view = update s.view i ((s.view i).afterFree o fs) →
      Freed S s (X.dropFreed S i) i := by
    intro X hcur hlist hview
    have hself : (X.dropFreed S i).view i = (s.view i).afterFree o fs := by
      rw [hview, update_self]
    have hmem : (X.dropFreed S i).currentMemorySize = s.currentMemorySize - S.size i :=
      congrArg (· - S.size i) hcur
    have hfreed : cost S i ((s.view i).afterFree o fs) = 0 := by
      apply if_neg
      show ¬ o.InMemory
      simp_all [BufferObj.InMemory]
    constructor
    · intro j hj
      rw [hview, update_of_ne hj]
    · exact congrArg (·.slot.contents) hself
    · exact congrArg (List.erase · i) hlist
    · apply h.change hi hview (mem_bufferMap_iff.mp hi) hv
      · omega
      · omega
  apply Outcome.ite
  · intro (htype : (s.view i).slot.obj.type = .ephemeral)
    apply addTemp_outcome
    · rw [view_setSlot, update_self]
      simpa [htype] using htracked.temp
    refine hdone _ rfl rfl ?_
    rw [view_dropFreed, view_addTemp, view_setSlot]
    simp [View.afterFree, hgc, htype]
    rfl
  · intro (htype : (s.view i).slot.obj.type ≠ .ephemeral)
    refine hdone (s.setSlot i _) rfl rfl ?_
    rw [view_dropFreed, view_setSlot]
    simp [View.afterFree, hgc, htype]
    rfl

/-- The state after some evictions: only objects that were unloaded have changed. -/
structure Evicted (S : Setup P D F) (s s' : BufferManager D F) : Prop where
  inv : Inv S s'
  kept : ∀ j, (s.slot j).obj.status ≠ .unloaded → s'.view j = s.view j
  contents : ∀ j, (s'.slot j).contents = (s.slot j).contents

theorem Evicted.refl (h : Inv S s) : Evicted S s s := ⟨h, fun _ _ => rfl, fun _ => rfl⟩

theorem Freed.evicted {s₁ s₂ : BufferManager D F} (h : Freed S s s₁ i)
    (hs : (s.slot i).obj.status = .unloaded) (h' : Evicted S s₁ s₂) : Evicted S s s₂ := by
  have hcontents : ∀ j, (s₁.slot j).contents = (s.slot j).contents := by
    intro j
    rcases eq_or_ne j i with rfl | hj
    · exact h.contents
    · exact congrArg (·.slot.contents) (h.other j hj)
  constructor
  · exact h'.inv
  · intro j hj
    have hne : j ≠ i := by
      rintro rfl
      exact hj hs
    have hsame := h.other j hne
    rw [← hsame]
    apply h'.kept
    rwa [show s₁.slot j = s.slot j from congrArg View.slot hsame]
  · intro j
    rw [h'.contents j, hcontents j]

/-- The loop of `RequestSpace` raises no error. -/
theorem freeSpace_outcome (h : Inv S s) (hnodup : l.Nodup)
    (hl : ∀ i ∈ l, i ∈ s.gcList) :
    Outcome (freeSpace S busy needSize l s) (Evicted S s) (fun _ => False) := by
  induction l generalizing s with
  | nil => exact .refl h
  | cons i l ih =>
    obtain ⟨hnotin, hnodup⟩ := nodup_cons.mp hnodup
    have hrest : ∀ j ∈ l, j ∈ s.gcList := fun j hj => hl j (mem_cons_of_mem i hj)
    obtain ⟨hi, hs⟩ := h.mem_gcList_iff.mp (hl i mem_cons_self)
    apply Outcome.ite
    · intro _
      apply Outcome.ite
      · intro _
        exact ih h hnodup hrest
      · intro _
        apply (free_outcome h hi hs).bind
        intro s' hfreed
        apply (ih hfreed.inv hnodup ?_).imp (fun _ => hfreed.evicted hs) fun _ => id
        intro j hj
        rw [hfreed.gcList]
        have hne : j ≠ i := by
          rintro rfl
          exact hnotin hj
        exact (mem_erase_of_ne hne).mpr (hrest j hj)
    · intro _
      exact .refl h

/-- **`RequestSpace` evicts unloaded objects only**, and fails only for want of memory. -/
theorem requestSpace_outcome (h : Inv S s) :
    Outcome (s.requestSpace S busy needSize) (fun s' => ∃ s₀, Evicted S s s₀ ∧ s'.view = s₀.view ∧
      s'.currentMemorySize = s₀.currentMemorySize + needSize ∧
      s'.currentMemorySize ≤ S.memoryLimit) (fun e => e = .outOfMemory) := by
  apply ((freeSpace_outcome h h.nodup_gcList fun _ => id).imp (fun _ => id) fun _ =>
    False.elim).bind
  intro s₀ hevicted
  apply Outcome.ite
  · intro _
    rfl
  · intro hfits
    exact ⟨s₀, hevicted, rfl, rfl, le_of_not_gt hfits⟩

/-- The state in which `Load` finds its object: it has left the queue and its space is accounted. -/
structure Room (S : Setup P D F) (s s₀ s' : BufferManager D F) (i : ℕ) : Prop where
  evicted : Evicted S s s₀
  same : s₀.view i = s.view i
  view : s'.view = update s₀.view i { s.view i with gc := 0, inGcMap := false }
  memory : s'.currentMemorySize + cost S i (s.view i) = s₀.currentMemorySize + S.size i
  limit : s'.currentMemorySize ≤ S.memoryLimit

theorem makeRoom_outcome (h : Inv S s) (hi : i ∈ s.bufferMap)
    (hs : (s.slot i).obj.status ≠ .clean) :
    Outcome (s.makeRoom S i busy) (fun s' => ∃ s₀, Room S s s₀ s' i) (fun e =>
    e = .outOfMemory) := by
  have htracked := h.tracked hi
  have hlimit := h.limit
  -- an object that is not in the queue keeps its view
  have hkeep : (s.slot i).obj.status ≠ .unloaded →
      ({ s.view i with gc := 0, inGcMap := false } : View D F) = s.view i := by
    intro hne
    obtain ⟨hgc, hmap⟩ := htracked.notQueued hne
    rw [← hgc, ← hmap]
  have hrequest : (s.slot i).obj.status ≠ .unloaded → ¬ (s.slot i).obj.InMemory →
      Outcome (s.requestSpace S busy (S.size i)) (fun s' => ∃ s₀, Room S s s₀ s' i) (fun e =>
      e = .outOfMemory) := by
    intro hne hnot
    apply (requestSpace_outcome h).imp _ fun _ => id
    rintro s' ⟨s₀, hevicted, hview, hmemory, hle⟩
    have hsame := hevicted.kept i hne
    have hcost : cost S i (s.view i) = 0 := if_neg hnot
    refine ⟨s₀, hevicted, hsame, ?_, by rw [hcost, hmemory, add_zero], hle⟩
    rw [hkeep hne, ← hsame, update_eq_self, hview]
  unfold makeRoom
  cases hstatus : (s.slot i).obj.status with
  | clean => exact absurd hstatus hs
  | loaded =>
    have hne : (s.slot i).obj.status ≠ .unloaded := by simp [hstatus]
    have hcost : cost S i (s.view i) = S.size i := if_pos (.inl hstatus)
    refine ⟨s, .refl h, rfl, ?_, by rw [hcost], hlimit⟩
    rw [hkeep hne, update_eq_self]
  | unloaded =>
    have hcost : cost S i (s.view i) = S.size i := if_pos (.inr hstatus)
    have hgc : (s.view i).gc = 1 := htracked.gc.trans (if_pos hstatus)
    apply removeFromGCQueue_outcome (htracked.inGcMap.mpr hstatus)
    refine ⟨s, .refl h, rfl, ?_, by rw [hcost], hlimit⟩
    rw [view_dequeue, hgc]
  | freed | new =>
    exact hrequest (by simp [hstatus]) (by simp [BufferObj.InMemory, hstatus])

end BufferManager

end Infinity.Buffer
