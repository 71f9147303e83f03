import Mathlib

/-! # Buffer objects (`storage/buffer/buffer_obj.cpp`, `file_worker.cpp`)

A buffer object holds the contents of one file in memory. Its status says whether they are in
memory, its type says which copy of them counts when they are not: the data file for a persistent
object, the spill file for a temporary one. An ephemeral object has no valid copy outside memory.

The functions here are the methods of `BufferObj` as far as the object itself is concerned; what
they ask of the buffer manager is in `BufferManager`.
-/

namespace Infinity.Buffer

/-- `BufferStatus`. -/
inductive BufferStatus where
  | loaded
  | unloaded
  | freed
  | clean
  | new
  deriving DecidableEq, Repr

/-- `BufferType`. -/
inductive BufferType where
  | persistent
  | ephemeral
  | temp
  deriving DecidableEq, Repr

/-- The errors that the methods raise. -/
inductive BufferError where
  /-- `attempt to buffer: {} status is UNLOADED, but not in GC queue`. -/
  | notInGcQueue
  /-- `BufferManager::AddTemp: file {} already exists.` -/
  | addTempExists
  /-- `BufferManager::RemoveTemp: file {} not found.`, in `RemoveTemp`. -/
  | removeTempNotFound
  /-- `BufferManager::RemoveTemp: file {} already exists in clean temp set.` -/
  | removeTempExists
  /-- `BufferManager::RemoveTemp: file {} not found.`, in `MoveTemp`. -/
  | moveTempNotFound
  /-- `Invalid status`, of `Load`, `PickForCleanup`, `CleanupFile` and `UnloadInner`. -/
  | invalidStatus
  /-- `Invalid buffer status: {}.`, of `Save`. -/
  | invalidBufferStatus
  /-- `attempt to free {} buffer object`. -/
  | freeStatus
  /-- `Out of memory.` -/
  | outOfMemory
  /-- `BufferManager::Allocate: file {} already exists.` -/
  | alreadyExists
  /-- `BufferManager::RemoveClean: file {} not found.` -/
  | removeCleanNotFound
  /-- `Buffer is not freed.` -/
  | notFreed
  /-- `No data will be written.` -/
  | noData
  /-- The file cannot be opened or its contents cannot be read. -/
  | readError
  /-- `MoveFile` or `CleanupTempFile` does not find the spill file. -/
  | fileNotFound
  deriving DecidableEq, Repr

/-! ## File workers -/

/-- The two files of a file worker, at the data path and at the spill path. -/
structure Files (F : Type) where
  file : Option F
  spill : Option F

/-- `FileWorker`, for contents `D` and files `F`. Files are opened without truncation, so that what
a file held before takes part in what it holds afterwards; `P` are the settings of the worker that
`WriteToFileImpl` reads. -/
structure FileWorker (P D F : Type) where
  allocateInMemory : D
  spillToFile : D → Option F → F
  saveToFile : P → D → Option F → F
  readFromFileImpl : F → Option D

namespace FileWorker

variable {P D F : Type} (W : FileWorker P D F)

/-- What is read back from either file is what was written. -/
structure Inverse : Prop where
  spill : ∀ d old, W.readFromFileImpl (W.spillToFile d old) = some d
  save : ∀ p d old, W.readFromFileImpl (W.saveToFile p d old) = some d

def contents (f : Option F) : Option D := f.bind W.readFromFileImpl

/-- `FileWorker::WriteToFile(true)`. -/
def writeSpill (data : Option D) (fs : Files F) : Except BufferError (Files F) :=
  match data with
  | none => .error .noData
  | some d => .ok { fs with spill := some (W.spillToFile d fs.spill) }

/-- `FileWorker::WriteToFile(false)`. -/
def writeData (p : P) (data : Option D) (fs : Files F) : Except BufferError (Files F) :=
  match data with
  | none => .error .noData
  | some d => .ok { fs with file := some (W.saveToFile p d fs.file) }

/-- `FileWorker::ReadFromFile`. -/
def readFromFile (fromSpill : Bool) (fs : Files F) : Except BufferError D :=
  match W.contents (if fromSpill then fs.spill else fs.file) with
  | none => .error .readError
  | some d => .ok d

end FileWorker

namespace Files

variable {F : Type}

/-- `FileWorker::MoveFile`. -/
def moveFile (fs : Files F) : Except BufferError (Files F) :=
  match fs.spill with
  | none => .error .fileNotFound
  | some f => .ok ⟨some f, none⟩

end Files

/-! ## Buffer objects -/

/-- `BufferObj`, with the contents that its file worker holds. -/
structure BufferObj (D : Type) where
  status : BufferStatus
  type : BufferType
  rc : ℕ
  data : Option D

namespace BufferObj

variable {P D F : Type} (W : FileWorker P D F)

/-- `BufferObj::BufferObj`. -/
def make (isEphemeral : Bool) : BufferObj D :=
  if isEphemeral then ⟨.new, .ephemeral, 0, none⟩ else ⟨.freed, .persistent, 0, none⟩

/-- The end of `Load`. -/
def pin (o : BufferObj D) : BufferObj D := { o with status := .loaded, rc := o.rc + 1 }

/-- `BufferObj::Load`, once the manager has found the space. -/
def load (o : BufferObj D) (fs : Files F) : Except BufferError (BufferObj D) :=
  match o.status with
  | .loaded => .ok o.pin
  | .unloaded => .ok o.pin
  | .freed =>
    if o.type = .ephemeral then .error .invalidStatus
    else do
      let d ← W.readFromFile (o.type ≠ .persistent) fs
      return { o with data := some d }.pin
  | .new => .ok { o with data := some W.allocateInMemory }.pin
  | .clean => .error .invalidStatus

/-- `BufferObj::Free`. -/
def free (o : BufferObj D) (fs : Files F) : Except BufferError (BufferObj D × Files F) :=
  if o.status ≠ .unloaded then .error .freeStatus
  else
    match o.type with
    | .ephemeral => do
      let fs ← W.writeSpill o.data fs
      return ({ o with type := .temp, data := none, status := .freed }, fs)
    | _ => .ok ({ o with data := none, status := .freed }, fs)

/-- `BufferObj::Save`. -/
def save (p : P) (o : BufferObj D) (fs : Files F) : Except BufferError (BufferObj D × Files F) := do
  let fs ← match o.type with
    | .ephemeral =>
      match o.status with
      | .loaded => W.writeData p o.data fs
      | .unloaded => W.writeData p o.data fs
      | .freed => fs.moveFile
      | _ => .error .invalidBufferStatus
    | .temp => fs.moveFile
    | .persistent => .ok fs
  return ({ o with type := .persistent }, fs)

/-- `BufferObj::PickForCleanup`. -/
def pickForCleanup (o : BufferObj D) : Except BufferError (BufferObj D) :=
  match o.status with
  | .new => .ok { o with status := .clean }
  | .freed => .ok { o with status := .clean }
  | .unloaded => .ok { o with status := .clean, data := none }
  | _ => .error .invalidStatus

/-- `BufferObj::LoadInner`, when a handle is copied. -/
def loadInner (o : BufferObj D) : Except BufferError (BufferObj D) :=
  if o.status ≠ .loaded then .error .invalidStatus else .ok { o with rc := o.rc + 1 }

/-- `BufferObj::GetMutPointer`, with the contents `d` that its caller leaves in memory. The call and
the write are one step: a pointer that is kept over a `Save` and written later is not covered. -/
def mutate (d : D) (o : BufferObj D) : BufferObj D := { o with type := .ephemeral, data := some d }

/-- `BufferObj::UnloadInner`, when a handle is released. -/
def unloadInner (o : BufferObj D) : Except BufferError (BufferObj D) :=
  if o.status ≠ .loaded then .error .invalidStatus
  else .ok { o with rc := o.rc - 1, status := if o.rc - 1 = 0 then .unloaded else .loaded }

def InMemory (o : BufferObj D) : Prop := o.status = .loaded ∨ o.status = .unloaded

instance (o : BufferObj D) : Decidable o.InMemory := inferInstanceAs (Decidable (_ ∨ _))

end BufferObj

end Infinity.Buffer
