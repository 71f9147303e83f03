import Infinity.Replay.SegmentTable

/-! # Statements that write segments

Each statement is a transaction of its own. An insert keeps its blocks to itself until the bottom
half of its commit appends them. An import takes the id of a segment when it starts to fill it and
puts the segment into `segment_map_` when it is full or the file ends; it may also end with an
error, or without rows. A compaction takes an id for each group of segments. The flush thread runs
the bottom halves one after the other, in the order of the log, and other statements go on in
between.

* `not_reproduced_overtakenRun`: an import that an insert overtakes.
-/

namespace Infinity.Replay

open Foundations Segment

variable {ρ : Type}

/-! ## Statements -/

/-- `CompactSegmentData`. -/
structure CompactSegmentData (ρ : Type) where
  newSegment : SegmentInfo ρ
  oldSegments : List ℕ

/-- What a transaction does to the table. -/
inductive Statement (ρ : Type) where
  | insert (blocks : List (List ρ))
  /-- The segment that is being filled, and those of `Txn::Import`. -/
  | importing (segment : Option ℕ) (saved : List (SegmentInfo ρ))
  /-- `segment_data_list_`, and whether `PhysicalCompactFinish` is done. -/
  | compact (data : List (CompactSegmentData ρ)) (finished : Bool)

namespace Statement

/-- `blocks_`, row by row. -/
def rows : Statement ρ → List ρ
  | .insert blocks => blocks.flatten
  | _ => []

def infos : Statement ρ → List (SegmentInfo ρ)
  | .insert _ => []
  | .importing _ saved => saved
  | .compact data _ => data.map CompactSegmentData.newSegment

def newIds (st : Statement ρ) : List ℕ := st.infos.map SegmentInfo.segmentId

def oldIds : Statement ρ → List ℕ
  | .compact data _ => data.flatMap CompactSegmentData.oldSegments
  | _ => []

def cmds : Statement ρ → List (WalCmd ρ)
  | .insert blocks => blocks.map .append
  | .importing _ saved => saved.map .importSegment
  | .compact data _ =>
    [.compact (data.map CompactSegmentData.newSegment)
      (data.flatMap CompactSegmentData.oldSegments)]

/-- A compaction commits when it is finished. -/
def complete : Statement ρ → Bool
  | .compact _ finished => finished
  | _ => true

end Statement

/-! ## Operations on the table -/

namespace TableEntry

/-- `emplace` of `TableEntry::Import` and `TableEntry::AddCompactNew`. -/
def emplace (txnId : ℕ) (t : TableEntry ρ) (info : SegmentInfo ρ) :
    Except SegmentError (TableEntry ρ) :=
  if (t.segmentMap info.segmentId).isSome then .error .insertFailed
  else .ok (t.setSegment info.segmentId ⟨info.rows, .unsealed, false, txnId⟩)

/-- The loop of `PhysicalCompact::Execute` over the candidates, with the segments it takes. -/
def takeCompactible (t : TableEntry ρ) : List ℕ → TableEntry ρ × List ℕ
  | [] => (t, [])
  | id :: ids =>
    match (t.segmentMap id).bind trySetCompacting with
    | some s =>
      let p := (t.setSegment id s).takeCompactible ids
      (p.1, id :: p.2)
    | none => t.takeCompactible ids

/-- The loop over segments with an operation that may fail. -/
def modifyAll (f : Segment ρ → Except SegmentError (Segment ρ)) (t : TableEntry ρ) (ids : List ℕ) :
    Except SegmentError (TableEntry ρ) :=
  ids.foldlM (fun t id => t.modify f id) t

/-- One group of `TableEntry::CommitCompact`. -/
def commitGroup (t : TableEntry ρ) (d : CompactSegmentData ρ) :
    Except SegmentError (TableEntry ρ) :=
  t.modify commitSegment d.newSegment.segmentId >>= fun t =>
    t.modifyAll setDeprecated d.oldSegments

/-- `TableEntry::CommitCompact`. -/
def commitCompact (t : TableEntry ρ) : Statement ρ → Except SegmentError (TableEntry ρ)
  | .compact data _ => data.foldlM commitGroup t
  | _ => .ok t

/-- The end of `Txn::CommitBottom`, after the append: `CommitCompact`, `SetSealed` and
`CommitWrite`. -/
def commitBottom (t : TableEntry ρ) (st : Statement ρ) (state : AppendState ρ) :
    Except SegmentError (TableEntry ρ) :=
  t.commitCompact st >>= fun t =>
    t.modifyAll setSealed (state.sealing ++ st.newIds) >>= fun t =>
      t.commitWrite (state.stored ++ st.newIds)

/-- `erase` of `segment_map_`. -/
def eraseSegment (t : TableEntry ρ) (id : ℕ) : TableEntry ρ :=
  { t with segmentMap := fun j => if j = id then none else t.segmentMap j }

/-- One group of `TableEntry::RollbackCompact`. -/
def rollbackGroup (t : TableEntry ρ) (d : CompactSegmentData ρ) :
    Except SegmentError (TableEntry ρ) :=
  match t.segmentMap d.newSegment.segmentId with
  | none => .error .rollbackNotFound
  | some s =>
    if s.committed then .error .rollbackCommitted
    else (t.eraseSegment d.newSegment.segmentId).modifyAll rollbackCompact d.oldSegments

/-- `TxnTableStore::Rollback`: the segments of an import stay where they are, and so does what a
compaction has done that is not finished. -/
def rollback (t : TableEntry ρ) : Statement ρ → Except SegmentError (TableEntry ρ)
  | .compact data true => data.foldlM rollbackGroup t
  | _ => .ok t

end TableEntry

/-! ## The system -/

/-- The table with the statements that run and the log. -/
structure Writers (ρ : Type) where
  table : TableEntry ρ
  running : ℕ → Option (Statement ρ)
  bottom : Option (ℕ × AppendState ρ)
  log : List (WalCmd ρ)

/-- The actions of writers. -/
inductive WriterAction (ρ : Type) where
  | insert (i : ℕ) (block : List ρ)
  | startSegment (i : ℕ)
  | saveSegment (i : ℕ) (rows : List ρ)
  | compactGroup (i : ℕ) (candidates : List ℕ) (rows : List ρ)
  | compactFinish (i : ℕ)
  | commit (i : ℕ)
  | appendRound
  | commitBottom
  | rollback (i : ℕ)

namespace Writers

def setRunning (s : Writers ρ) (i : ℕ) (st : Option (Statement ρ)) : Writers ρ :=
  { s with running := fun j => if j = i then st else s.running j }

def setTable (s : Writers ρ) (t : TableEntry ρ) : Writers ρ := { s with table := t }

def executes (s : Writers ρ) (i : ℕ) : Bool := s.bottom.all (·.1 ≠ i)

/-- `Txn::Append`. -/
def insert (s : Writers ρ) (i : ℕ) (block : List ρ) : Option (Writers ρ) :=
  match s.running i with
  | none => some (s.setRunning i (some (.insert [block])))
  | some (.insert blocks) => some (s.setRunning i (some (.insert (blocks ++ [block]))))
  | _ => none

/-- `Catalog::GetNextSegmentID`. -/
def takeId (s : Writers ρ) : Writers ρ :=
  { s with table := { s.table with nextSegmentId := s.table.nextSegmentId + 1 } }

def startSegment (s : Writers ρ) (i : ℕ) : Option (Writers ρ) :=
  match s.running i with
  | none => some (s.takeId.setRunning i (some (.importing (some s.table.nextSegmentId) [])))
  | some (.importing none saved) =>
    some (s.takeId.setRunning i (some (.importing (some s.table.nextSegmentId) saved)))
  | _ => none

/-- `PhysicalImport::SaveSegmentData`. -/
def saveSegment (s : Writers ρ) (i : ℕ) (rows : List ρ) : Option (Writers ρ) :=
  match s.running i with
  | some (.importing (some id) saved) =>
    match s.table.emplace i ⟨id, rows⟩ with
    | .ok t => some ((s.setTable t).setRunning i (some (.importing none (saved ++ [⟨id, rows⟩]))))
    | .error _ => none
  | _ => none

def groups (s : Writers ρ) (i : ℕ) : Option (List (CompactSegmentData ρ)) :=
  match s.running i with
  | none => some []
  | some (.compact data false) => some data
  | _ => none

/-- `PhysicalCompact::Execute` for one group. Which rows are copied is left open. -/
def compactGroup (s : Writers ρ) (i : ℕ) (candidates : List ℕ) (rows : List ρ) :
    Option (Writers ρ) :=
  (s.groups i).map fun data =>
    let p := s.table.takeCompactible candidates
    (s.setTable p.1).takeId.setRunning i
      (some (.compact (data ++ [⟨⟨s.table.nextSegmentId, rows⟩, p.2⟩]) false))

/-- `PhysicalCompactFinish::Execute`. -/
def compactFinish (s : Writers ρ) (i : ℕ) : Option (Writers ρ) :=
  match s.running i with
  | some (.compact data false) =>
    match s.table.modifyAll setNoDelete (data.flatMap CompactSegmentData.oldSegments) >>=
        fun t => (data.map CompactSegmentData.newSegment).foldlM (TableEntry.emplace i) t with
    | .ok t => some ((s.setTable t).setRunning i (some (.compact data true)))
    | .error _ => none
  | _ => none

/-- The flush thread comes to a transaction: `append_state_` is made from its blocks. -/
def commit (s : Writers ρ) (i : ℕ) : Option (Writers ρ) :=
  match s.bottom, s.running i with
  | none, some st =>
    if st.complete then some { s with bottom := some (i, ⟨st.rows, [], []⟩) } else none
  | _, _ => none

def appendRound (s : Writers ρ) : Option (Writers ρ) :=
  match s.bottom with
  | some (i, state) =>
    if state.rest.isEmpty then none
    else
      match s.table.appendRound i state with
      | .ok (t, state) => some { s with table := t, bottom := some (i, state) }
      | .error _ => none
  | none => none

def commitBottom (s : Writers ρ) : Option (Writers ρ) :=
  match s.bottom with
  | some (i, state) =>
    match s.running i with
    | some st =>
      if state.rest.isEmpty then
        match s.table.commitBottom st state with
        | .ok t =>
          some ((⟨t, s.running, none, s.log ++ st.cmds⟩ : Writers ρ).setRunning i none)
        | .error _ => none
      else none
    | none => none
  | none => none

/-- `Txn::Rollback`. -/
def rollback (s : Writers ρ) (i : ℕ) : Option (Writers ρ) :=
  match s.running i with
  | some st =>
    match s.table.rollback st with
    | .ok t => some ((s.setTable t).setRunning i none)
    | .error _ => none
  | none => none

def execute (s : Writers ρ) : WriterAction ρ → Option (Writers ρ)
  | .insert i block => s.insert i block
  | .startSegment i => s.startSegment i
  | .saveSegment i rows => s.saveSegment i rows
  | .compactGroup i candidates rows => s.compactGroup i candidates rows
  | .compactFinish i => s.compactFinish i
  | .commit i => s.commit i
  | .rollback i => s.rollback i
  | .appendRound => s.appendRound
  | .commitBottom => s.commitBottom

/-- Whether a transaction other than the one that the flush thread is at acts, or the flush
thread. -/
def mayAct (s : Writers ρ) : WriterAction ρ → Bool
  | .insert i _ | .startSegment i | .saveSegment i _ | .compactGroup i _ _ | .compactFinish i
  | .commit i | .rollback i => s.executes i
  | .appendRound | .commitBottom => true

def step (s : Writers ρ) (a : WriterAction ρ) : Option (Writers ρ) :=
  if s.mayAct a then s.execute a else none

def start : Writers ρ := ⟨.empty, fun _ => none, none, []⟩

def committedRows (s : Writers ρ) (id : ℕ) : Option (List ρ) :=
  ((s.table.segmentMap id).filter committed).map rows

/-- The replay of the log ends without error, with the segments that are committed, each with its
rows, and with a next id that is none of theirs. -/
def Reproduced (s : Writers ρ) : Prop := ∃ t, replay s.log = .ok t ∧
    (∀ id, (t.segmentMap id).map rows = s.committedRows id) ∧ ∀ id, (t.segmentMap id).isSome →
    id < t.nextSegmentId

end Writers

def writing (ρ : Type) : TransitionSystem (Writers ρ) (WriterAction ρ) where
  Initial s := s = .start
  step := Writers.step

/-- An import takes the id of its segment; before it is saved and committed, an insert commits. -/
def overtakenRun : List (WriterAction ℕ) :=
  [.startSegment 1, .insert 2 [20], .commit 2, .appendRound, .commitBottom, .saveSegment 1 [10],
    .commit 1, .commitBottom]

/-- The insert is replayed into the segment with the id of the import, and the import takes its
place: the segment of the insert is lost. -/
theorem not_reproduced_overtakenRun : ∃ s : Writers ℕ, (writing ℕ).Reachable s ∧
    (writing ℕ).run .start overtakenRun = some s ∧ s.bottom = none ∧
    (s.committedRows 0 = some [10] ∧ s.committedRows 1 = some [20]) ∧ ¬ s.Reproduced := by
  refine ⟨_, TransitionSystem.Reachable.of_run overtakenRun (.initial rfl) rfl, rfl, rfl,
    ⟨rfl, rfl⟩, ?_⟩
  rintro ⟨t, ⟨⟩, hrows, -⟩
  have hone := hrows 1
  cases hone

end Infinity.Replay
