import Infinity.Buffer.BufferManager
import Infinity.Foundations.Outcome

/-! # What the buffer manager knows of one object

The view of an object is its slot together with its entries in the queue and in the sets of the
manager. `Tracked` is the invariant of the view of an object that exists: the entries are those that
its status and type call for, and the contents are where its type says. The lemmas say that the
methods of `BufferObj` keep it and which errors they can raise.
-/

namespace Infinity.Buffer

open Foundations BufferObj

/-- The part of the manager's state that concerns one path. -/
structure View (D F : Type) where
  present : Bool
  slot : Slot D F
  gc : ℕ
  inGcMap : Bool
  clean : ℕ
  temp : Bool
  cleanTemp : Bool

namespace View

variable {P D F : Type}

/-- The contents of an object are where its status and type say. -/
structure Holds (W : FileWorker P D F) (t : Slot D F) : Prop where
  memory : t.obj.InMemory → t.obj.data = t.contents
  fresh : t.obj.status = .new → t.contents = some W.allocateInMemory
  temp : t.obj.type = .temp → W.contents t.files.spill = t.contents
  persistent : t.obj.type = .persistent → W.contents t.files.file = t.contents

/-- The entries of an existing object in the manager are those its status and type call for. -/
structure Tracked (W : FileWorker P D F) (v : View D F) : Prop where
  rc : v.slot.obj.rc = v.slot.handles
  loaded : 0 < v.slot.obj.rc ↔ v.slot.obj.status = .loaded
  gc : v.gc = if v.slot.obj.status = .unloaded then 1 else 0
  inGcMap : v.inGcMap = true ↔ v.slot.obj.status = .unloaded
  clean : v.clean = if v.slot.obj.status = .clean then 1 else 0
  temp : v.temp = true ↔ v.slot.obj.type = .temp ∧ v.slot.obj.status ≠ .clean
  cleanTemp : v.cleanTemp = true → v.temp = false ∧ v.slot.files.spill.isSome = true
  ephemeral : v.slot.obj.type = .ephemeral → v.slot.obj.status ≠ .freed
  fresh : v.slot.obj.status = .new → v.slot.obj.type = .ephemeral
  data : v.slot.obj.data.isSome = true ↔ v.slot.obj.InMemory
  spill : v.slot.obj.type = .temp → v.slot.files.spill.isSome = true
  saved : v.slot.saved = true → v.slot.obj.type = .persistent
  holds : W.Inverse → Holds W v.slot

/-- The manager has no entry of an object that does not exist. -/
structure Absent (v : View D F) : Prop where
  gc : v.gc = 0
  inGcMap : v.inGcMap = false
  clean : v.clean = 0
  temp : v.temp = false
  cleanTemp : v.cleanTemp = false

/-- What holds of an object. -/
structure Valid (W : FileWorker P D F) (v : View D F) : Prop where
  tracked : v.present = true → v.Tracked W
  absent : v.present = false → v.Absent

/-! ## Views after a method -/

/-- `Free`, with `AddTemp` and the removal from the queue. -/
def afterFree (v : View D F) (o : BufferObj D) (fs : Files F) : View D F := { v with
    slot := { v.slot with obj := o, files := fs }
    gc := 0
    inGcMap := false
    temp := v.temp || v.slot.obj.type = .ephemeral
    cleanTemp := v.cleanTemp && v.slot.obj.type ≠ .ephemeral }

/-- `Load`, with the removal from the queue. -/
def afterLoad (v : View D F) (o : BufferObj D) : View D F := { v with
    slot := { v.slot with obj := o, handles := v.slot.handles + 1 }
    gc := 0
    inGcMap := false }

/-- `LoadInner`. -/
def afterLoadInner (v : View D F) (o : BufferObj D) : View D F :=
  { v with slot := { v.slot with obj := o, handles := v.slot.handles + 1 } }

/-- `UnloadInner`, with `PushGCQueue`. -/
def afterUnloadInner (v : View D F) (o : BufferObj D) : View D F := { v with
    slot := { v.slot with obj := o, handles := v.slot.handles - 1 }
    gc := if o.status = .unloaded then 1 else 0
    inGcMap := o.status = .unloaded }

/-- `GetMutPointer` and the mutation, with `RemoveTemp`. -/
def afterMutate (v : View D F) (d : D) : View D F := { v with
    slot := { v.slot with obj := v.slot.obj.mutate d, contents := some d, saved := false }
    temp := false
    cleanTemp := v.cleanTemp || v.slot.obj.type = .temp }

/-- `Save`, with `MoveTemp`. -/
def afterSave (v : View D F) (o : BufferObj D) (fs : Files F) : View D F :=
  { v with slot := { v.slot with obj := o, files := fs, saved := true }, temp := false }

/-- `PickForCleanup`, with `AddToCleanList` and `RemoveTemp`. -/
def afterPick (v : View D F) (o : BufferObj D) : View D F := { v with
    slot := { v.slot with obj := o }
    gc := 0
    inGcMap := false
    clean := v.clean + 1
    temp := false
    cleanTemp := v.cleanTemp || v.slot.obj.type = .temp }

/-- `RemoveClean`, for an object that stays: the spill file goes if the object does not need it. -/
def afterRemoveClean (v : View D F) : View D F := { v with
    slot := { v.slot with files := ⟨v.slot.files.file,
      if v.cleanTemp = true ∧ v.slot.obj.type ≠ .temp then none else v.slot.files.spill⟩ }
    cleanTemp := false }

/-- A new object, once it is in `buffer_map_`. -/
def afterMake (W : FileWorker P D F) (v : View D F) (isEphemeral : Bool) : View D F := { v with
    present := true
    slot := ⟨.make isEphemeral, v.slot.files, 0, if isEphemeral then some W.allocateInMemory
      else W.contents v.slot.files.file, false⟩ }

variable {W : FileWorker P D F} {v : View D F}

section

variable (h : v.Tracked W)
include h

theorem Tracked.rc_eq_zero (hs : v.slot.obj.status ≠ .loaded) : v.slot.obj.rc = 0 := by
  apply Nat.eq_zero_of_not_pos
  exact fun hpos => hs (h.loaded.mp hpos)

theorem Tracked.status_of_handles (hpos : 0 < v.slot.handles) : v.slot.obj.status = .loaded := by
  rw [← h.rc] at hpos
  exact h.loaded.mp hpos

theorem Tracked.exists_data (hs : v.slot.obj.InMemory) : ∃ d, v.slot.obj.data = some d :=
  Option.isSome_iff_exists.mp (h.data.mpr hs)

theorem Tracked.notQueued (hs : v.slot.obj.status ≠ .unloaded) : v.gc = 0 ∧ v.inGcMap = false :=
  ⟨h.gc.trans (if_neg hs), Bool.not_eq_true _ ▸ fun hmem => hs (h.inGcMap.mp hmem)⟩

theorem Tracked.temp_eq_false (hnot : ¬ (v.slot.obj.type = .temp ∧ v.slot.obj.status ≠ .clean)) :
    v.temp = false :=
  Bool.not_eq_true _ ▸ fun hmem => hnot (h.temp.mp hmem)

theorem Tracked.cleanTemp_eq_false (hmem : v.temp) : v.cleanTemp = false :=
  Bool.not_eq_true _ ▸ fun hct => Bool.false_ne_true ((h.cleanTemp hct).1.symm.trans hmem)

theorem Tracked.free (hs : v.slot.obj.status = .unloaded) :
      Outcome (v.slot.obj.free W v.slot.files) (fun r =>
      r.1.status = .freed ∧ (v.afterFree r.1 r.2).Tracked W) (fun _ => False) := by
  have hrc := h.rc_eq_zero (by simp [hs])
  obtain ⟨d, hd⟩ := h.exists_data (.inr hs)
  obtain ⟨hhandles, -, -, -, hclean, htemp, hcleanTemp, -, -, -, hspill, hsaved, hholds⟩ := h
  unfold BufferObj.free afterFree
  rw [if_neg (by simpa using hs)]
  cases htype : v.slot.obj.type with
  | ephemeral =>
    simp only [FileWorker.writeSpill, hd]
    refine ⟨rfl, ?_⟩
    constructor
    case holds =>
      intro hW
      have hmemory := (hholds hW).memory (.inr hs)
      constructor
      case temp =>
        intro _
        rw [← hmemory, hd]
        exact hW.spill d _
      all_goals simp [BufferObj.InMemory]
    all_goals simp_all [BufferObj.InMemory]
  | _ =>
    refine ⟨rfl, ?_⟩
    constructor
    case holds =>
      intro hW
      obtain ⟨-, -, hfromSpill, hfromFile⟩ := hholds hW
      constructor <;> simp_all [BufferObj.InMemory]
    all_goals simp_all [BufferObj.InMemory]

/-! ## Handles -/

/-- What `Load` finds in the file of a freed object. -/
theorem Tracked.readFromFile (hs : v.slot.obj.status = .freed) :
    Outcome (W.readFromFile (v.slot.obj.type ≠ .persistent) v.slot.files)
      (fun d => W.Inverse → v.slot.contents = some d)
      (fun e => e = .readError ∧ (W.Inverse → v.slot.contents = none)) := by
  have hfound : W.Inverse → W.contents (if decide (v.slot.obj.type ≠ .persistent) then
      v.slot.files.spill else v.slot.files.file) = v.slot.contents := by
    intro hW
    obtain ⟨-, -, hfromSpill, hfromFile⟩ := h.holds hW
    have hne := h.ephemeral
    cases htype : v.slot.obj.type with
    | ephemeral => exact absurd hs (hne htype)
    | temp => simpa using hfromSpill htype
    | persistent => simpa using hfromFile htype
  unfold FileWorker.readFromFile
  split
  next hnone => exact ⟨rfl, fun hW => (hfound hW).symm.trans hnone⟩
  next d hsome => exact fun hW => (hfound hW).symm.trans hsome

theorem Tracked.load : Outcome (v.slot.obj.load W v.slot.files) (fun o => (v.afterLoad o).Tracked W)
      (fun e => e = .invalidStatus ∧ v.slot.obj.status = .clean ∨
        e = .readError ∧ (W.Inverse → v.slot.contents = none)) := by
  have hread := h.readFromFile
  have hmemory := h.exists_data
  obtain ⟨hhandles, -, -, -, hclean, htemp, hcleanTemp, hephemeral, hfresh, -, hspill, hsaved,
    hholds⟩ := h
  unfold BufferObj.load afterLoad
  cases hs : v.slot.obj.status with
  | clean => exact .inl ⟨rfl, rfl⟩
  | new =>
    constructor
    case holds =>
      intro hW
      have hcontents := (hholds hW).fresh hs
      constructor <;> simp_all [BufferObj.InMemory, pin]
    all_goals simp_all [BufferObj.InMemory, pin]
  | freed =>
    rw [if_neg fun htype => hephemeral htype hs]
    apply ((hread hs).imp (fun _ => id) fun e he => .inr he).bind
    intro d hd
    constructor
    case holds =>
      intro hW
      obtain ⟨-, -, hfromSpill, hfromFile⟩ := hholds hW
      constructor <;> simp_all [BufferObj.InMemory, pin]
    all_goals simp_all [BufferObj.InMemory, pin]
  | _ =>
    obtain ⟨d, hd⟩ := hmemory (by simp [BufferObj.InMemory, hs])
    constructor
    case holds =>
      intro hW
      obtain ⟨hfromMemory, -, hfromSpill, hfromFile⟩ := hholds hW
      constructor <;> simp_all [BufferObj.InMemory, pin]
    all_goals simp_all [BufferObj.InMemory, pin]

section

variable (hpos : 0 < v.slot.handles)
include hpos

theorem Tracked.loadInner :
    Outcome v.slot.obj.loadInner (fun o => (v.afterLoadInner o).Tracked W) (fun _ => False) := by
  have hs := h.status_of_handles hpos
  unfold BufferObj.loadInner
  rw [if_neg (by simpa using hs)]
  exact { h with
    rc := congrArg (· + 1) h.rc
    loaded := by simp [afterLoadInner, hs]
    holds := fun hW => { h.holds hW with } }

theorem Tracked.unloadInner :
    Outcome v.slot.obj.unloadInner (fun o => o.InMemory ∧ (v.afterUnloadInner o).Tracked W)
    (fun _ => False) := by
  have hs := h.status_of_handles hpos
  obtain ⟨d, hd⟩ := h.exists_data (.inl hs)
  obtain ⟨hhandles, -, -, -, hclean, htemp, hcleanTemp, -, -, -, hspill, hsaved, hholds⟩ := h
  unfold BufferObj.unloadInner afterUnloadInner
  rw [if_neg (by simpa using hs)]
  -- the last handle makes the object evictable
  rcases Nat.eq_zero_or_pos (v.slot.obj.rc - 1) with hlast | hmore
  on_goal 1 => refine ⟨.inr (if_pos hlast), ?_⟩
  on_goal 2 =>
    have hne : v.slot.obj.rc - 1 ≠ 0 := hmore.ne'
    refine ⟨.inl (if_neg hne), ?_⟩
  all_goals
    constructor
    case holds =>
      intro hW
      obtain ⟨hfromMemory, -, hfromSpill, hfromFile⟩ := hholds hW
      constructor <;> simp_all [BufferObj.InMemory]
    all_goals simp_all [BufferObj.InMemory]

theorem Tracked.mutate (d : D) : (v.afterMutate d).Tracked W := by
  have hs := h.status_of_handles hpos
  obtain ⟨hhandles, hloaded, hgc, hmap, hclean, htemp, hcleanTemp, -, -, -, hspill, -, -⟩ := h
  unfold afterMutate BufferObj.mutate
  constructor
  case holds => exact fun _ => ⟨fun _ => rfl, by simp [hs], nofun, nofun⟩
  case cleanTemp =>
    intro hct
    refine ⟨rfl, ?_⟩
    rcases Bool.or_eq_true_iff.mp hct with hct | htype
    · exact (hcleanTemp hct).2
    · exact hspill (of_decide_eq_true htype)
  all_goals simp_all [BufferObj.InMemory]

end

/-! ## Saving and cleaning up -/

/-- The data file after `Save`. -/
theorem Tracked.saveFiles (p : P) (htemp : v.slot.obj.type = .temp → v.slot.obj.status ≠ .clean) :
    Outcome (v.slot.obj.save W p v.slot.files) (fun r =>
      r.1 = { v.slot.obj with type := .persistent } ∧
      (v.cleanTemp → r.2.spill.isSome) ∧
      (W.Inverse → W.contents r.2.file = v.slot.contents) ∧ v.slot.obj.status ≠ .new)
      (fun e => e = .invalidBufferStatus) := by
  have hdata := h.exists_data
  obtain ⟨-, -, -, -, -, hinTemp, hcleanTemp, hephemeral, hfresh, -, hspill, -, hholds⟩ := h
  unfold save
  cases htype : v.slot.obj.type with
  | persistent =>
    refine ⟨rfl, fun hct => (hcleanTemp hct).2, fun hW => (hholds hW).persistent htype, ?_⟩
    intro hs
    rw [hfresh hs] at htype
    cases htype
  | temp =>
    obtain ⟨f, hf⟩ := Option.isSome_iff_exists.mp (hspill htype)
    simp only [Files.moveFile, hf]
    refine ⟨rfl, ?_, ?_, ?_⟩
    · intro hct
      cases (hcleanTemp hct).1.symm.trans (hinTemp.mpr ⟨htype, htemp htype⟩)
    · intro hW
      rw [← (hholds hW).temp htype, hf]
    · intro hs
      rw [hfresh hs] at htype
      cases htype
  | ephemeral =>
    cases hs : v.slot.obj.status with
    | freed => exact absurd hs (hephemeral htype)
    | new => exact rfl
    | clean => exact rfl
    | _ =>
      obtain ⟨d, hd⟩ := hdata (by simp [BufferObj.InMemory, hs])
      simp only [FileWorker.writeData, hd]
      refine ⟨by simp [hs], fun hct => (hcleanTemp hct).2, ?_, nofun⟩
      intro hW
      rw [← (hholds hW).memory (by simp [BufferObj.InMemory, hs]), hd]
      exact hW.save p d _

theorem Tracked.save (p : P) (htemp : v.slot.obj.type = .temp → v.slot.obj.status ≠ .clean) :
    Outcome (v.slot.obj.save W p v.slot.files)
      (fun r => r.1.status = v.slot.obj.status ∧ (v.afterSave r.1 r.2).Tracked W)
      (fun e => e = .invalidBufferStatus) := by
  apply (h.saveFiles p htemp).imp _ fun _ => id
  rintro ⟨o, fs⟩ ⟨ho, hspill, hfile, hnew⟩
  subst ho
  refine ⟨rfl, ?_⟩
  exact { h with
    temp := by simp [afterSave]
    cleanTemp := fun hct => ⟨rfl, hspill hct⟩
    ephemeral := nofun
    fresh := fun hs => absurd hs hnew
    spill := nofun
    saved := fun _ => rfl
    holds := fun hW =>
      { memory := (h.holds hW).memory
        fresh := fun hs => absurd hs hnew
        temp := nofun
        persistent := fun _ => hfile hW } }

theorem Tracked.pickForCleanup : Outcome v.slot.obj.pickForCleanup (fun o => o.status = .clean ∧
      v.slot.obj.status ≠ .clean ∧ v.slot.obj.status ≠ .loaded ∧ (v.afterPick o).Tracked W)
      (fun e => e = .invalidStatus) := by
  have hrc := h.rc_eq_zero
  obtain ⟨hhandles, -, -, -, hclean, htemp, hcleanTemp, hephemeral, hfresh, hdata, hspill, hsaved,
    hholds⟩ := h
  have hct : (v.cleanTemp || decide (v.slot.obj.type = .temp)) → v.slot.files.spill.isSome := by
    intro hct
    rcases Bool.or_eq_true_iff.mp hct with hct | htype
    · exact (hcleanTemp hct).2
    · exact hspill (of_decide_eq_true htype)
  unfold BufferObj.pickForCleanup afterPick
  cases hs : v.slot.obj.status with
  | loaded => rfl
  | clean => rfl
  | _ =>
    refine ⟨rfl, nofun, nofun, ?_⟩
    constructor
    case holds =>
      intro hW
      obtain ⟨hfromMemory, hfromNew, hfromSpill, hfromFile⟩ := hholds hW
      constructor <;> simp_all [BufferObj.InMemory]
    case cleanTemp => exact fun h => ⟨rfl, hct h⟩
    all_goals simp_all [BufferObj.InMemory]

theorem Tracked.removeClean : v.afterRemoveClean.Tracked W := by
  have hkeep : v.slot.obj.type = .temp →
      (if v.cleanTemp ∧ v.slot.obj.type ≠ .temp then none else v.slot.files.spill) =
        v.slot.files.spill := fun htype => if_neg fun hct => hct.2 htype
  exact { h with
    cleanTemp := nofun
    spill := fun htype => by simpa [afterRemoveClean, hkeep htype] using h.spill htype
    holds := fun hW => { h.holds hW with
      temp := fun htype => by
        simpa [afterRemoveClean, hkeep htype] using (h.holds hW).temp htype } }

end

theorem Absent.make (h : v.Absent) (isEphemeral : Bool) :
    (v.afterMake W isEphemeral).Tracked W := by
  obtain ⟨hgc, hmap, hclean, htemp, hcleanTemp⟩ := h
  unfold afterMake
  cases isEphemeral with
  | true =>
    constructor
    case holds => exact fun _ => ⟨nofun, fun _ => rfl, nofun, nofun⟩
    all_goals simp_all [BufferObj.make, BufferObj.InMemory]
  | false =>
    constructor
    case holds => exact fun _ => ⟨nofun, nofun, nofun, fun _ => rfl⟩
    all_goals simp_all [BufferObj.make, BufferObj.InMemory]

end View

end Infinity.Buffer
