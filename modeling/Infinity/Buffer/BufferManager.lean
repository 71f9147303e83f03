import Infinity.Buffer.BufferObj
import Infinity.Foundations.Transition

/-! # The buffer manager (`storage/buffer/buffer_manager.cpp`)

Buffer objects are named by their file paths, here by numbers. A method of `BufferObj` runs together
with the methods of `BufferManager` that it calls as one step; only the objects that `RequestSpace`
fails to lock are left to chance.

* `BufferAction`, `BufferManager.exec`: what the users of the manager call.
-/

namespace Infinity.Buffer

open Foundations

/-- What is fixed during a run: the file worker and the size of every object, and the limit. -/
structure Setup (P D F : Type) where
  worker : ℕ → FileWorker P D F
  size : ℕ → ℕ
  memoryLimit : ℕ

/-- What belongs to one path: the object and its files. The last three fields record what has
happened and are not read. -/
structure Slot (D F : Type) where
  obj : BufferObj D
  files : Files F
  handles : ℕ
  contents : Option D
  /-- `Save` has been called, and there has been no mutation since. -/
  saved : Bool

/-- `BufferManager`. -/
structure BufferManager (D F : Type) where
  bufferMap : Finset ℕ
  slot : ℕ → Slot D F
  gcList : List ℕ
  gcMap : Finset ℕ
  cleanList : List ℕ
  tempSet : Finset ℕ
  cleanTempSet : Finset ℕ
  currentMemorySize : ℕ

namespace BufferManager

variable {P D F : Type} (S : Setup P D F) (s : BufferManager D F)

def setSlot (i : ℕ) (t : Slot D F) : BufferManager D F :=
  { s with slot := Function.update s.slot i t }

/-- `current_memory_size_ -= size`. -/
def giveBack (size : ℕ) : BufferManager D F :=
  { s with currentMemorySize := s.currentMemorySize - size }

/-! ## The sets and the queue -/

/-- `BufferManager::AddTemp`. -/
def addTemp (i : ℕ) : Except BufferError (BufferManager D F) :=
  if i ∈ s.tempSet then .error .addTempExists
  else .ok { s with tempSet := insert i s.tempSet, cleanTempSet := s.cleanTempSet.erase i }

/-- `BufferManager::RemoveTemp`. -/
def removeTemp (i : ℕ) : Except BufferError (BufferManager D F) :=
  if i ∉ s.tempSet then .error .removeTempNotFound
  else if i ∈ s.cleanTempSet then .error .removeTempExists
  else .ok { s with tempSet := s.tempSet.erase i, cleanTempSet := insert i s.cleanTempSet }

/-- `BufferManager::MoveTemp`. -/
def moveTemp (i : ℕ) : Except BufferError (BufferManager D F) :=
  if i ∉ s.tempSet then .error .moveTempNotFound
  else .ok { s with tempSet := s.tempSet.erase i }

/-- `BufferManager::PushGCQueue`. -/
def pushGCQueue (i : ℕ) : BufferManager D F := { s with
    gcList := (if i ∈ s.gcMap then s.gcList.erase i else s.gcList) ++ [i]
    gcMap := insert i s.gcMap }

/-- `BufferManager::RemoveFromGCQueue`; its callers raise the error. -/
def removeFromGCQueue (i : ℕ) : Except BufferError (BufferManager D F) :=
  if i ∈ s.gcMap then .ok { s with gcList := s.gcList.erase i, gcMap := s.gcMap.erase i }
  else .error .notInGcQueue

/-- `BufferManager::AddToCleanList`. -/
def addToCleanList (i : ℕ) (doFree : Bool) : Except BufferError (BufferManager D F) :=
  let s' := { s with cleanList := s.cleanList ++ [i] }
  if doFree then (s'.giveBack (S.size i)).removeFromGCQueue i else .ok s'

/-! ## Eviction -/

/-- `BufferObj::Free` on the object of a path. -/
def free (i : ℕ) : Except BufferError (BufferManager D F) := do
  let t := s.slot i
  let (o, fs) ← t.obj.free (S.worker i) t.files
  let s' := s.setSlot i { t with obj := o, files := fs }
  if t.obj.type = .ephemeral then s'.addTemp i else pure s'

/-- What `RequestSpace` does after an object was freed. -/
def dropFreed (i : ℕ) : BufferManager D F :=
  { s.giveBack (S.size i) with gcList := s.gcList.erase i, gcMap := s.gcMap.erase i }

/-- The loop of `BufferManager::RequestSpace` over the rest of the queue. -/
def freeSpace (busy : List ℕ) (needSize : ℕ) : List ℕ → BufferManager D F →
    Except BufferError (BufferManager D F)
  | [], s => .ok s
  | i :: rest, s =>
    if S.memoryLimit < s.currentMemorySize + needSize then
      -- the lock of a busy object is not taken, and the object stays
      if i ∈ busy then freeSpace busy needSize rest s
      else do
        let s' ← s.free S i
        freeSpace busy needSize rest (s'.dropFreed S i)
    else .ok s

/-- `BufferManager::RequestSpace`. -/
def requestSpace (busy : List ℕ) (needSize : ℕ) : Except BufferError (BufferManager D F) := do
  let s' ← freeSpace S busy needSize s.gcList s
  if S.memoryLimit < s'.currentMemorySize + needSize then .error .outOfMemory
  else pure { s' with currentMemorySize := s'.currentMemorySize + needSize }

/-! ## The methods that users call -/

/-- `BufferManager::AllocateBufferObject`. -/
def allocateBufferObject (i : ℕ) : Except BufferError (BufferManager D F) :=
  if i ∈ s.bufferMap then .error .alreadyExists
  else
    let t : Slot D F := ⟨.make true, (s.slot i).files, 0, some (S.worker i).allocateInMemory, false⟩
    .ok { s.setSlot i t with bufferMap := insert i s.bufferMap }

/-- `BufferManager::GetBufferObject`; the contents of a new object are those of its data file. -/
def getBufferObject (i : ℕ) : Except BufferError (BufferManager D F) :=
  if i ∈ s.bufferMap then .ok s
  else
    let fs := (s.slot i).files
    let t : Slot D F := ⟨.make false, fs, 0, (S.worker i).contents fs.file, false⟩
    .ok { s.setSlot i t with bufferMap := insert i s.bufferMap }

/-- What `BufferObj::Load` asks of the manager. -/
def makeRoom (i : ℕ) (busy : List ℕ) : Except BufferError (BufferManager D F) :=
  match (s.slot i).obj.status with
  | .unloaded => s.removeFromGCQueue i
  | .freed => s.requestSpace S busy (S.size i)
  | .new => s.requestSpace S busy (S.size i)
  | _ => .ok s

/-- `BufferObj::Load`. -/
def load (i : ℕ) (busy : List ℕ) : Except BufferError (BufferManager D F) := do
  let s' ← s.makeRoom S i busy
  let t := s'.slot i
  let o ← t.obj.load (S.worker i) t.files
  return s'.setSlot i { t with obj := o, handles := t.handles + 1 }

/-- `BufferObj::LoadInner`. -/
def loadInner (i : ℕ) : Except BufferError (BufferManager D F) := do
  let t := s.slot i
  let o ← t.obj.loadInner
  return s.setSlot i { t with obj := o, handles := t.handles + 1 }

/-- `BufferObj::UnloadInner`. -/
def unloadInner (i : ℕ) : Except BufferError (BufferManager D F) := do
  let t := s.slot i
  let o ← t.obj.unloadInner
  let s' := s.setSlot i { t with obj := o, handles := t.handles - 1 }
  return if o.status = .unloaded then s'.pushGCQueue i else s'

/-- `BufferObj::GetMutPointer`, with the contents that its caller leaves. -/
def mutate (i : ℕ) (d : D) : Except BufferError (BufferManager D F) := do
  let t := s.slot i
  let s' ← if t.obj.type = .temp then s.removeTemp i else pure s
  return s'.setSlot i { t with obj := t.obj.mutate d, contents := some d, saved := false }

/-- `BufferObj::Save`. -/
def save (i : ℕ) (p : P) : Except BufferError (BufferManager D F) := do
  let t := s.slot i
  let s' ← if t.obj.type = .temp then s.moveTemp i else pure s
  let (o, fs) ← t.obj.save (S.worker i) p t.files
  return s'.setSlot i { t with obj := o, files := fs, saved := true }

/-- `BufferObj::PickForCleanup`. -/
def pickForCleanup (i : ℕ) : Except BufferError (BufferManager D F) := do
  let t := s.slot i
  let o ← t.obj.pickForCleanup
  let s' ← s.addToCleanList S i (t.obj.status = .unloaded)
  let s' := s'.setSlot i { t with obj := o }
  if t.obj.type = .temp then s'.removeTemp i else pure s'

/-- The files of a path after `RemoveClean`: `CleanupFile` for the objects in `clean_list_`, and
`CleanupTempFile` for those in `clean_temp_set_`, which keeps the file of a temporary object. -/
def cleanedFiles (i : ℕ) : Files F where
  file := if i ∈ s.cleanList then none else (s.slot i).files.file
  spill :=
    if i ∈ s.cleanTempSet ∧ (s.slot i).obj.type ≠ .temp then none else (s.slot i).files.spill

/-- `BufferManager::RemoveClean`. -/
def removeClean : Except BufferError (BufferManager D F) :=
  if ∃ i ∈ s.cleanList, (s.slot i).obj.status ≠ .clean then .error .invalidStatus
  else if ∃ i ∈ s.cleanList, (s.slot i).obj.data.isSome then .error .notFreed
  else if ∃ i ∈ s.cleanTempSet, (s.slot i).obj.type ≠ .temp ∧ (s.slot i).files.spill.isNone then
    .error .fileNotFound
  else if ¬ (s.cleanList.Nodup ∧ ∀ i ∈ s.cleanList, i ∈ s.bufferMap) then
    .error .removeCleanNotFound
  else
    .ok { s with
      slot := fun i => { s.slot i with files := s.cleanedFiles i }
      cleanList := []
      cleanTempSet := ∅
      gcList := s.gcList.diff s.cleanList
      gcMap := s.gcMap \ s.cleanList.toFinset
      bufferMap := s.bufferMap \ s.cleanList.toFinset }

end BufferManager

/-! ## Runs -/

/-- The calls of the users of the buffer manager. -/
inductive BufferAction (P D : Type) where
  | allocateBufferObject (i : ℕ)
  | getBufferObject (i : ℕ)
  | load (i : ℕ) (busy : List ℕ)
  | copyHandle (i : ℕ)
  | releaseHandle (i : ℕ)
  | mutate (i : ℕ) (d : D)
  | save (i : ℕ) (p : P)
  | pickForCleanup (i : ℕ)
  | removeClean

namespace BufferManager

variable {P D F : Type} (S : Setup P D F)

/-- The callers' side: methods are called on objects that exist, and only a holder of a handle
copies it, releases it or asks for the contents to change them. -/
def Possible (s : BufferManager D F) : BufferAction P D → Prop
  | .allocateBufferObject _ => True
  | .getBufferObject _ => True
  | .load i _ => i ∈ s.bufferMap
  | .copyHandle i => i ∈ s.bufferMap ∧ 0 < (s.slot i).handles
  | .releaseHandle i => i ∈ s.bufferMap ∧ 0 < (s.slot i).handles
  | .mutate i _ => i ∈ s.bufferMap ∧ 0 < (s.slot i).handles
  | .save i _ => i ∈ s.bufferMap
  | .pickForCleanup i => i ∈ s.bufferMap
  | .removeClean => True

instance (s : BufferManager D F) (a : BufferAction P D) : Decidable (s.Possible a) := by
  unfold Possible
  split <;> infer_instance

def exec (s : BufferManager D F) : BufferAction P D → Except BufferError (BufferManager D F)
  | .allocateBufferObject i => s.allocateBufferObject S i
  | .getBufferObject i => s.getBufferObject S i
  | .load i busy => s.load S i busy
  | .copyHandle i => s.loadInner i
  | .releaseHandle i => s.unloadInner i
  | .mutate i d => s.mutate i d
  | .save i p => s.save S i p
  | .pickForCleanup i => s.pickForCleanup S i
  | .removeClean => s.removeClean

def start (slot : ℕ → Slot D F) : BufferManager D F := ⟨∅, slot, [], ∅, [], ∅, ∅, 0⟩

end BufferManager

def buffering {P D F : Type} (S : Setup P D F) :
    TransitionSystem (BufferManager D F) (BufferAction P D) where
  Initial s := ∃ slot, (∀ i, (slot i).files.spill = none) ∧ s = .start slot
  step s a := if s.Possible a then (s.exec S a).toOption else none

end Infinity.Buffer
