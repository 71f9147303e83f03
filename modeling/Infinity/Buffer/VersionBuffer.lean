import Infinity.Buffer.BufferObj
import Infinity.Storage.BlockVersion

/-! # The buffered versions of a block (`VersionFileWorker`, `BlockEntry::Flush`)

The versions of a block live in a buffer object. Its file worker writes them whole to the spill
file, but without what is later than the checkpoint to the data file, and `Save` makes the object
persistent all the same. If such an object is evicted, the next `Load` reads the shorter versions.

* `versionBuffering`: the writers of a block, checkpoints, readers and evictions.
* `exposed_of_reachable`: `Load` exposes the versions as if there had been no eviction, in every run
  in which an object is evicted as persistent only if its data file was written whole.
* `not_exposed_lossyRun`: a run in which it does not.
-/

namespace Infinity.Storage.BlockVersion

/-- What `BlockVersion::SaveToFile` leaves of the versions: the fields at the end that are later
than the checkpoint are left out, and so are deletions that are later. -/
def saveToFile (checkpointTs : ℕ) (v : BlockVersion) : BlockVersion where
  created := v.created.rdropWhile (checkpointTs < ·.createTs)
  deleted := v.deleted.map fun ts => if ts ≤ checkpointTs then ts else 0

def UpTo (t : ℕ) (v : BlockVersion) : Prop :=
  (∀ f ∈ v.created, f.createTs ≤ t) ∧ ∀ ts ∈ v.deleted, ts ≤ t

instance (t : ℕ) (v : BlockVersion) : Decidable (v.UpTo t) := inferInstanceAs (Decidable (_ ∧ _))

theorem UpTo.saveToFile {t : ℕ} {v : BlockVersion} (h : v.UpTo t) : v.saveToFile t = v := by
  unfold BlockVersion.saveToFile
  have hcreated : v.created.rdropWhile (fun f => decide (t < f.createTs)) = v.created := by
    apply List.rdropWhile_eq_self_iff.mpr
    intro hne
    simpa using h.1 _ (List.getLast_mem hne)
  have hdeleted : v.deleted.map (fun ts => if ts ≤ t then ts else 0) = v.deleted := by
    rw [List.map_congr_left fun ts hts => if_pos (h.2 ts hts)]
    exact List.map_id _
  rw [hcreated, hdeleted]

end Infinity.Storage.BlockVersion

namespace Infinity.Buffer

open Foundations Storage Option

/-- `VersionFileWorker`; its setting is `checkpoint_ts_`. A file is given by the versions that it
describes, since `LoadFromFile` reads as much as was written and no more. -/
def versionFileWorker (capacity : ℕ) : FileWorker ℕ BlockVersion BlockVersion where
  allocateInMemory := .make capacity
  spillToFile v _ := v
  saveToFile checkpointTs v _ := v.saveToFile checkpointTs
  readFromFileImpl := some

/-- A block whose versions are buffered. The last two fields record what has happened. -/
structure BufferedBlock where
  entry : BlockEntry
  obj : BufferObj BlockVersion
  files : Files BlockVersion
  /-- The versions as they would be had they never left the memory. -/
  kept : BlockVersion
  /-- The checkpoint up to which `Save` wrote the data file; none if the file was written whole. -/
  cutTs : Option ℕ

/-- The calls on a block. -/
inductive VersionAction where
  | appendData (txnId commitTs appendRows : ℕ)
  | deleteData (txnId commitTs : ℕ) (rows : List ℕ)
  | commitBlock (txnId commitTs : ℕ)
  | flushVersion (checkpointTs : ℕ)
  | flush (checkpointTs : ℕ)
  | load
  | release
  | evict

namespace BufferedBlock

def worker : FileWorker ℕ BlockVersion BlockVersion :=
  versionFileWorker BlockEntry.defaultVectorSize

/-- `BufferObj::Load`. -/
def load (b : BufferedBlock) : Option BufferedBlock :=
  (b.obj.load worker b.files).toOption.map fun o => { b with obj := o }

/-- `BufferObj::UnloadInner`. -/
def release (b : BufferedBlock) : Option BufferedBlock :=
  b.obj.unloadInner.toOption.map fun o => { b with obj := o }

/-- `BufferObj::Free`. -/
def evict (b : BufferedBlock) : Option BufferedBlock :=
  (b.obj.free worker b.files).toOption.map fun (o, fs) => { b with obj := o, files := fs }

/-- `SetCheckpointTS` and `BufferObj::Save`. -/
def save (b : BufferedBlock) (checkpointTs : ℕ) : Option BufferedBlock :=
  (b.obj.save worker checkpointTs b.files).toOption.map fun (o, fs) =>
    { b with
      obj := o
      files := fs
      cutTs := match b.obj.type with
        | .ephemeral => some checkpointTs
        | .temp => none
        | .persistent => b.cutTs }

/-- A change of the versions through a handle, as `AppendData` and `DeleteData` make it. -/
def write (b : BufferedBlock) (f : BlockVersion → Option (BlockEntry × BlockVersion)) :
    Option BufferedBlock := do
  let b₁ ← b.load
  let v ← b₁.obj.data
  let (e, v') ← f v
  release { b₁ with
    entry := e, obj := b₁.obj.mutate v', kept := (f b.kept).elim b.kept Prod.snd }

/-- `BlockEntry::FlushVersion`, with its result. -/
def flushVersion (b : BufferedBlock) (checkpointTs : ℕ) : Option (Bool × BufferedBlock) :=
  if b.entry.maxRowTs ≠ 0 ∧
      (b.entry.maxRowTs ≤ b.entry.checkpointTs ∨ b.entry.minRowTs.all (checkpointTs < ·)) then
    some (false, b)
  else (b.save checkpointTs).map fun b' => (true, b')

/-- `BlockEntry::Flush`, without the columns. -/
def flush (b : BufferedBlock) (checkpointTs : ℕ) : Option BufferedBlock :=
  if checkpointTs < b.entry.checkpointTs then none
  else do
    let (flushed, b₁) ← b.flushVersion checkpointTs
    if flushed then
      let b₂ ← b₁.load
      let v ← b₂.obj.data
      release { b₂ with entry := { b₂.entry with
        checkpointTs := checkpointTs, checkpointRowCount := v.getRowCount checkpointTs } }
    else some b₁

/-- The effect of an action; there is none where the source raises an error. -/
def step (b : BufferedBlock) : VersionAction → Option BufferedBlock
  | .appendData txnId commitTs appendRows => b.write fun v =>
    (b.entry.appendData v txnId commitTs appendRows).map fun (e, v', _) => (e, v')
  | .deleteData txnId commitTs rows => b.write fun v => b.entry.deleteData v txnId commitTs rows
  | .commitBlock txnId commitTs =>
    (b.entry.commitBlock txnId commitTs).map fun e => { b with entry := e }
  | .flushVersion checkpointTs => (b.flushVersion checkpointTs).map Prod.snd
  | .flush checkpointTs => b.flush checkpointTs
  | .load => b.load
  | .release => b.release
  | .evict => b.evict

/-- `BlockEntry::NewBlockEntry`. -/
def newBlock (checkpointTs : ℕ) : BufferedBlock :=
  ⟨.newBlockEntry checkpointTs, .make true, ⟨none, none⟩, .make BlockEntry.defaultVectorSize, none⟩

/-- `BlockEntry::NewReplayBlockEntry`, with the versions in the data file. -/
def replayBlock (entry : BlockEntry) (v : BlockVersion) : BufferedBlock :=
  ⟨entry, .make false, ⟨some v, none⟩, v, none⟩

end BufferedBlock

open BufferedBlock

def versionBuffering : TransitionSystem BufferedBlock VersionAction where
  Initial b := (∃ checkpointTs, b = .newBlock checkpointTs) ∨ ∃ entry v, b = .replayBlock entry v
  step := BufferedBlock.step

/-! ## Where the versions are -/

namespace BufferedBlock

def fileVersion (b : BufferedBlock) : BlockVersion :=
  b.cutTs.elim b.kept fun t => b.kept.saveToFile t

/-- The versions are where the status and the type of the object say. -/
structure Kept (b : BufferedBlock) : Prop where
  status : b.obj.status ≠ .clean
  loaded : 0 < b.obj.rc ↔ b.obj.status = .loaded
  memory : b.obj.InMemory → b.obj.data = some b.kept
  fresh : b.obj.status = .new → b.obj.type = .ephemeral ∧
    b.kept = .make BlockEntry.defaultVectorSize
  ephemeral : b.obj.type = .ephemeral → b.obj.status ≠ .freed
  temp : b.obj.type = .temp → b.files.spill = some b.kept
  persistent : b.obj.type = .persistent → b.files.file = some b.fileVersion
  freed : b.obj.type = .persistent → b.obj.status = .freed → ∀ t ∈ b.cutTs, b.kept.UpTo t

/-- An eviction that loses nothing: a persistent object is evicted only if nothing in its versions
is later than the checkpoint that its data file was cut at. -/
def EvictsSaved (b : BufferedBlock) : VersionAction → Prop
  | .evict => b.obj.type = .persistent → ∀ t ∈ b.cutTs, b.kept.UpTo t
  | _ => True

instance (b : BufferedBlock) (a : VersionAction) : Decidable (b.EvictsSaved a) := by
  unfold EvictsSaved
  split <;> infer_instance

variable {b b' : BufferedBlock} {fs : Files BlockVersion}

theorem fileVersion_of_upTo (h : ∀ t ∈ b.cutTs, b.kept.UpTo t) : b.fileVersion = b.kept := by
  unfold fileVersion
  cases hcut : b.cutTs with
  | none => rfl
  | some t => exact (h t hcut).saveToFile

theorem readFromFile_worker {fromSpill : Bool} {v : BlockVersion}
    (h : (if fromSpill then fs.spill else fs.file) = some v) :
    worker.readFromFile fromSpill fs = .ok v := by
  unfold FileWorker.readFromFile
  rw [h]
  rfl

section

variable (h : b.Kept) {checkpointTs : ℕ}
include h

/-- `Load` succeeds and exposes the versions. -/
theorem Kept.load : ∃ o, b.obj.load worker b.files = .ok o ∧ o.status = .loaded ∧
      o.type = b.obj.type ∧ 0 < o.rc ∧ o.data = some b.kept := by
  unfold BufferObj.load
  cases hs : b.obj.status with
  | clean => exact absurd hs h.status
  | new =>
    obtain ⟨-, hkept⟩ := h.fresh hs
    exact ⟨_, rfl, rfl, rfl, Nat.succ_pos _, by rw [hkept]; rfl⟩
  | freed =>
    have hread : worker.readFromFile (b.obj.type ≠ .persistent) b.files = .ok b.kept := by
      apply readFromFile_worker
      cases htype : b.obj.type with
      | ephemeral => exact absurd hs (h.ephemeral htype)
      | temp => exact h.temp htype
      | persistent =>
        have hfile := h.persistent htype
        rw [fileVersion_of_upTo (h.freed htype hs)] at hfile
        exact hfile
    rw [if_neg fun htype => h.ephemeral htype hs, hread]
    exact ⟨_, rfl, rfl, rfl, Nat.succ_pos _, rfl⟩
  | loaded => exact ⟨_, rfl, rfl, rfl, Nat.succ_pos _, h.memory (.inl hs)⟩
  | unloaded => exact ⟨_, rfl, rfl, rfl, Nat.succ_pos _, h.memory (.inr hs)⟩

/-- The state after a `Load`. -/
theorem Kept.of_load (hs : b.load = some b') :
    b'.Kept ∧ b'.obj.status = .loaded ∧ b'.obj.data = some b.kept ∧ b'.kept = b.kept := by
  obtain ⟨o, hload, hstatus, htype, hrc, hdata⟩ := h.load
  unfold BufferedBlock.load at hs
  rw [hload] at hs
  cases hs
  refine ⟨?_, hstatus, hdata, rfl⟩
  constructor
  · simp [hstatus]
  · simp [hstatus, hrc]
  · exact fun _ => hdata
  · simp [hstatus]
  · simp [hstatus]
  · exact fun ht => h.temp (htype.symm.trans ht)
  · exact fun ht => h.persistent (htype.symm.trans ht)
  · simp [hstatus]

/-- The state after a handle was released. -/
theorem Kept.of_release (hs : b.release = some b') : b'.Kept := by
  unfold release BufferObj.unloadInner at hs
  split at hs
  · cases hs
  next hloaded =>
    rw [not_not] at hloaded
    cases hs
    have hdata := h.memory (.inl hloaded)
    constructor
    · split <;> simp
    · split <;> (simp_all; try omega)
    · exact fun _ => hdata
    · split <;> simp
    · split <;> simp
    · exact h.temp
    · exact h.persistent
    · split <;> simp

/-- The state after a mutation through a handle. -/
theorem Kept.mutate (hs : b.obj.status = .loaded) (e : BlockEntry) (v : BlockVersion) :
    Kept { b with entry := e, obj := b.obj.mutate v, kept := v } where
  status := h.status
  loaded := h.loaded
  memory _ := rfl
  fresh hnew := by cases hs.symm.trans hnew
  ephemeral _ hfreed := by cases hs.symm.trans hfreed
  temp := nofun
  persistent := nofun
  freed := nofun

theorem Kept.of_write {f : BlockVersion → Option (BlockEntry × BlockVersion)}
    (hs : b.write f = some b') : b'.Kept := by
  obtain ⟨b₁, hload, hs⟩ := bind_eq_some_iff.mp hs
  obtain ⟨hkept, hstatus, hdata, -⟩ := h.of_load hload
  obtain ⟨v, hv, hs⟩ := bind_eq_some_iff.mp hs
  obtain ⟨⟨e, v'⟩, hf, hs⟩ := bind_eq_some_iff.mp hs
  -- what is changed is what would have been changed without evictions
  cases hdata.symm.trans hv
  have hmutate := hkept.mutate hstatus e v'
  rw [hf] at hs
  exact hmutate.of_release hs

/-- A persistent object keeps the other facts. -/
theorem Kept.persist (hnew : b.obj.status ≠ .new)
    {cut : Option ℕ} (hfile : fs.file = some (cut.elim b.kept fun t => b.kept.saveToFile t))
    (hfreed : b.obj.status = .freed → ∀ t ∈ cut, b.kept.UpTo t) :
    Kept { b with obj := { b.obj with type := .persistent }, files := fs, cutTs := cut } where
  status := h.status
  loaded := h.loaded
  memory := h.memory
  fresh hs := absurd hs hnew
  ephemeral := nofun
  temp := nofun
  persistent _ := hfile
  freed _ := hfreed

theorem Kept.of_save (hs : b.save checkpointTs = some b') : b'.Kept := by
  have hnew : b.obj.type ≠ .ephemeral → b.obj.status ≠ .new := fun hne hs => hne (h.fresh hs).1
  unfold save BufferObj.save at hs
  cases htype : b.obj.type with
  | persistent =>
    rw [htype] at hs
    cases hs
    exact h.persist (hnew (by simp [htype])) (h.persistent htype) (h.freed htype)
  | temp =>
    -- the spill file, which was written whole, becomes the data file
    rw [htype] at hs
    unfold Files.moveFile at hs
    rw [h.temp htype] at hs
    cases hs
    exact h.persist (hnew (by simp [htype])) rfl nofun
  | ephemeral =>
    rw [htype] at hs
    cases hstatus : b.obj.status with
    | freed => exact absurd hstatus (h.ephemeral htype)
    | clean => exact absurd hstatus h.status
    | new =>
      rw [hstatus] at hs
      cases hs
    | _ =>
      have hdata := h.memory (by simp [BufferObj.InMemory, hstatus])
      rw [hstatus] at hs
      rw [hdata] at hs
      cases hs
      have hkept : Kept { b with
          obj := { b.obj with type := .persistent }
          files := ⟨some (worker.saveToFile checkpointTs b.kept b.files.file), b.files.spill⟩
          cutTs := some checkpointTs } := h.persist (by simp [hstatus]) rfl (by simp [hstatus])
      simpa [hstatus, hdata] using hkept

theorem Kept.of_evict (hok : b.EvictsSaved .evict) (hs : b.evict = some b') : b'.Kept := by
  unfold evict BufferObj.free at hs
  split at hs
  · cases hs
  next hunloaded =>
    rw [not_not] at hunloaded
    have hdata := h.memory (.inr hunloaded)
    have hrc : b.obj.rc = 0 := by
      apply Nat.eq_zero_of_not_pos
      intro hpos
      cases hunloaded.symm.trans (h.loaded.mp hpos)
    cases htype : b.obj.type with
    | ephemeral =>
      rw [htype] at hs
      rw [hdata] at hs
      cases hs
      constructor <;> simp [BufferObj.InMemory, hrc]
      rfl
    | temp =>
      rw [htype] at hs
      cases hs
      constructor <;> simp [BufferObj.InMemory, hrc, h.temp htype]
    | persistent =>
      rw [htype] at hs
      cases hs
      constructor
      case persistent => exact fun _ => h.persistent htype
      case freed => exact fun _ _ => hok htype
      all_goals simp [BufferObj.InMemory, hrc]

theorem Kept.of_flushVersion {flushed : Bool}
    (hs : b.flushVersion checkpointTs = some (flushed, b')) : b'.Kept := by
  unfold flushVersion at hs
  split at hs
  · cases hs
    exact h
  · obtain ⟨b₁, hsave, ⟨⟩⟩ := map_eq_some_iff.mp hs
    exact h.of_save hsave

theorem Kept.of_flush (hs : b.flush checkpointTs = some b') : b'.Kept := by
  unfold flush at hs
  split at hs
  · cases hs
  obtain ⟨⟨flushed, b₁⟩, hflush, hs⟩ := bind_eq_some_iff.mp hs
  have hkept := h.of_flushVersion hflush
  cases flushed with
  | false =>
    cases hs
    exact hkept
  | true =>
    obtain ⟨b₂, hload, hs⟩ := bind_eq_some_iff.mp hs
    obtain ⟨v, -, hs⟩ := bind_eq_some_iff.mp hs
    have hloaded := (hkept.of_load hload).1
    have hentry : ∀ e : BlockEntry, Kept { b₂ with entry := e } := fun _ => { hloaded with }
    exact (hentry _).of_release hs

theorem Kept.of_step {a : VersionAction} (hok : b.EvictsSaved a) (hs : b.step a = some b') :
    b'.Kept := by
  cases a with
  | appendData txnId commitTs appendRows => exact h.of_write hs
  | deleteData txnId commitTs rows => exact h.of_write hs
  | commitBlock txnId commitTs =>
    obtain ⟨e, -, rfl⟩ := map_eq_some_iff.mp hs
    exact { h with }
  | flushVersion checkpointTs =>
    obtain ⟨⟨flushed, b₁⟩, hflush, rfl⟩ := map_eq_some_iff.mp hs
    exact h.of_flushVersion hflush
  | flush checkpointTs => exact h.of_flush hs
  | load => exact (h.of_load hs).1
  | release => exact h.of_release hs
  | evict => exact h.of_evict hok hs

end

theorem Kept.newBlock (checkpointTs : ℕ) : Kept (.newBlock checkpointTs) := by
  constructor <;> simp [BufferedBlock.newBlock, BufferObj.make, BufferObj.InMemory]

theorem Kept.replayBlock (entry : BlockEntry) (v : BlockVersion) : Kept (.replayBlock entry v) := by
  constructor
  case persistent => exact fun _ => rfl
  all_goals simp [BufferedBlock.replayBlock, BufferObj.make, BufferObj.InMemory]

theorem Kept.of_reachable (h : (versionBuffering.restrict EvictsSaved).Reachable b) : b.Kept := by
  apply h.invariant
  · rintro _ (⟨checkpointTs, rfl⟩ | ⟨entry, v, rfl⟩)
    · exact .newBlock checkpointTs
    · exact .replayBlock entry v
  · intro b a b' hkept hs
    obtain ⟨hok, hstep⟩ := TransitionSystem.restrict_step_eq_some.mp hs
    exact hkept.of_step hok hstep

/-- `Load` exposes versions that count the rows and date the deletions as if the versions had never
left the memory. -/
def Exposed (b : BufferedBlock) : Prop :=
  ∃ o v, b.obj.load worker b.files = .ok o ∧ o.data = some v ∧
    (∀ t, v.getRowCount t = b.kept.getRowCount t) ∧ ∀ row : ℕ,
    v.deleted[row]? = b.kept.deleted[row]?

end BufferedBlock

open BufferedBlock

/-- **Evictions do not change visibility** in a run in which a persistent object is evicted only if
its data file leaves nothing out. -/
theorem exposed_of_reachable {b : BufferedBlock}
    (h : (versionBuffering.restrict EvictsSaved).Reachable b) : b.Exposed := by
  obtain ⟨o, hload, -, -, -, hdata⟩ := (Kept.of_reachable h).load
  exact ⟨o, b.kept, hload, hdata, fun _ => rfl, fun _ => rfl⟩

/-! ## A checkpoint below the newest commit -/

/-- Two committed appends, and a checkpoint between their time stamps. -/
def lossyRun : List VersionAction :=
  [.appendData 1 10 2, .commitBlock 1 10, .appendData 2 20 3, .commitBlock 2 20, .flush 15, .evict]

def lossyBlock : BufferedBlock := (versionBuffering.run (.newBlock 0) lossyRun).get (by decide)

/-- After the eviction the rows of the second append are gone. -/
theorem not_exposed_lossyRun : versionBuffering.Reachable lossyBlock ∧ ¬ lossyBlock.Exposed := by
  constructor
  · exact .of_run lossyRun (.initial (.inl ⟨0, rfl⟩)) (some_get _).symm
  · rintro ⟨o, v, hload, hdata, hrows, -⟩
    have hread : (lossyBlock.obj.load worker lossyBlock.files).toOption.bind
        (fun o => o.data.map (·.getRowCount 20)) = some 2 := by decide
    have hkept : lossyBlock.kept.getRowCount 20 = 5 := by decide
    simp_all [Except.toOption]

/-- The same checkpoint, with one more append before the eviction: the versions are spilled
whole. -/
def spilledRun : List VersionAction :=
  [.appendData 1 10 2, .commitBlock 1 10, .appendData 2 20 3, .commitBlock 2 20, .flush 15,
    .appendData 3 30 1, .commitBlock 3 30, .evict]

def spilledBlock : BufferedBlock :=
  ((versionBuffering.restrict EvictsSaved).run (.newBlock 0) spilledRun).get (by decide)

theorem exposed_spilledRun : (versionBuffering.restrict EvictsSaved).Reachable spilledBlock ∧
    spilledBlock.Exposed :=
  have hreach : (versionBuffering.restrict EvictsSaved).Reachable spilledBlock :=
    .of_run spilledRun (.initial (.inl ⟨0, rfl⟩)) (some_get _).symm
  ⟨hreach, exposed_of_reachable hreach⟩

end Infinity.Buffer
