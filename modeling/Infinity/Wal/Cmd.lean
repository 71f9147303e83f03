import Infinity.Storage.TableDef
import Infinity.Storage.IndexBase
import Infinity.Storage.DataBlock
import Infinity.Wal.SegmentInfo

/-! # Log commands and their codec (`storage/wal/wal_entry.cpp`)

Every change of a transaction is logged as a command: a type code and the fields of the command.
Three functions know the layout, `getSizeInBytes`, `writeAdv` and `readAdv`.

* `WalCmd.sized`: the size is the number of bytes written unless a column type is not
  serializable.
-/

namespace Infinity.Wal

open Foundations Infinity.Parser Storage List WalSegmentInfo

variable {p : ℕ} {d : FilterData}

/-- `WalCommandType`. -/
inductive WalCommandType where
  | invalid | createDatabase | dropDatabase | createTable | dropTable | alterInfo | createIndex
  | dropIndex | importSegment | append | delete | setSegmentStatusSealed
  | updateSegmentBloomFilterData | checkpoint | compact
  deriving DecidableEq, Repr

namespace WalCommandType

def code : WalCommandType → UInt8
  | .invalid => 0
  | .createDatabase => 1
  | .dropDatabase => 2
  | .createTable => 3
  | .dropTable => 4
  | .alterInfo => 5
  | .createIndex => 6
  | .dropIndex => 7
  | .importSegment => 20
  | .append => 21
  | .delete => 22
  | .setSegmentStatusSealed => 31
  | .updateSegmentBloomFilterData => 32
  | .checkpoint => 99
  | .compact => 100

def all : List WalCommandType :=
  [.invalid, .createDatabase, .dropDatabase, .createTable, .dropTable, .alterInfo, .createIndex,
   .dropIndex, .importSegment, .append, .delete, .setSegmentStatusSealed,
   .updateSegmentBloomFilterData, .checkpoint, .compact]

def ofCode (c : UInt8) : Option WalCommandType := all.find? (·.code == c)

theorem ofCode_code (t : WalCommandType) : ofCode t.code = some t := by
  cases t <;> rfl

end WalCommandType

/-! ## Commands -/

/-- What the sealing of a segment and the update of its bloom filter log. -/
structure FilterData where
  dbName : Bytes
  tableName : Bytes
  segmentId : UInt32
  segmentFilter : Bytes
  blockFilters : List (UInt16 × Bytes)
  deriving DecidableEq, Repr

/-- `WalCmd` and its subclasses. -/
inductive WalCmd where
  | createDatabase (dbName dbDirTail : Bytes)
  | dropDatabase (dbName : Bytes)
  | createTable (dbName tableDirTail : Bytes) (tableDef : TableDef)
  | dropTable (dbName tableName : Bytes)
  | importSegment (dbName tableName : Bytes) (segmentInfo : WalSegmentInfo)
  | append (dbName tableName : Bytes) (block : DataBlock)
  | delete (dbName tableName : Bytes) (rowIds : List RowID)
  | setSegmentStatusSealed (data : FilterData)
  | updateSegmentBloomFilterData (data : FilterData)
  | checkpoint (maxCommitTs : Int64) (isFullCheckpoint : Bool) (catalogPath : Bytes)
  | createIndex (dbName tableName indexDirTail : Bytes) (indexBase : IndexBase)
  | dropIndex (dbName tableName indexName : Bytes)
  | compact (dbName tableName : Bytes) (newSegmentInfos : List WalSegmentInfo)
      (deprecatedSegmentIds : List UInt32)

namespace FilterData

def writeBlockFilter (f : UInt16 × Bytes) : Bytes := writePod f.1 ++ writeString f.2

def readBlockFilter : Read (UInt16 × Bytes) := do
  let blockId ← readPod UInt16
  let filter ← readString
  pure (blockId, filter)

def size (d : FilterData) : Int32 :=
  Int32.ofNat (4 + d.dbName.length) + Int32.ofNat (4 + d.tableName.length) + Int32.ofNat 4
    + Int32.ofNat (4 + d.segmentFilter.length) + Int32.ofNat 4
    + sumSizes (fun f => Int32.ofNat (2 + (4 + f.2.length))) d.blockFilters

def write (d : FilterData) : Bytes :=
  writeString d.dbName ++ (writeString d.tableName ++ (writePod d.segmentId ++
    (writeString d.segmentFilter ++ writeVector writeBlockFilter d.blockFilters)))

def read : Read FilterData := do
  let dbName ← readString
  let tableName ← readString
  let segmentId ← readPod UInt32
  let segmentFilter ← readString
  let blockFilters ← readResized readBlockFilter
  pure ⟨dbName, tableName, segmentId, segmentFilter, blockFilters⟩

theorem length_writeBlockFilter (f : UInt16 × Bytes) :
    (writeBlockFilter f).length = 2 + (4 + f.2.length) := by
  simp [writeBlockFilter, stringSize, Pod.width]

theorem length_write (d : FilterData) : d.write.length =
    4 + d.dbName.length + (4 + d.tableName.length) + 4 + (4 + d.segmentFilter.length)
      + (4 + (d.blockFilters.flatMap writeBlockFilter).length) := by
  simp only [write, length_append, length_writePod, length_writeString, stringSize,
    length_writeVector, Pod.width]
  omega

def byteCount (d : FilterData) : ℕ :=
  4 + d.dbName.length + (4 + d.tableName.length) + 4 + (4 + d.segmentFilter.length)
    + (4 + (d.blockFilters.map fun f => 2 + (4 + f.2.length)).sum)

theorem length_write_eq : d.write.length = d.byteCount := by
  rw [length_write, length_flatMap_eq length_writeBlockFilter, byteCount]

theorem size_eq : d.size = Int32.ofNat d.write.length := by
  have hfilters : sumSizes (fun f : UInt16 × Bytes => Int32.ofNat (2 + (4 + f.2.length)))
      d.blockFilters = Int32.ofNat (d.blockFilters.flatMap writeBlockFilter).length :=
    sumSizes_eq (fun f => by rw [length_writeBlockFilter]) _
  rw [size, hfilters, length_write]
  simp only [← Int32.ofNat_add]
  congr 1
  omega

theorem read_write {d : FilterData} (h : d.write.length < sizeLimit) :
    ReadsAt p read d.write d := by
  refine string_bind h fun h => string_bind h fun h => .pod <| string_bind (lt_of_append h) fun h =>
    ?_
  obtain ⟨hcount, hitem⟩ := vector_lt (fun f => by rw [length_writeBlockFilter]; omega) h
  exact .last (readResized_writeVector hcount fun f hf q _ _ =>
    .pod (string_last (lt_of_append (hitem f hf)) (.pure _))) (.pure _)

end FilterData

namespace WalCmd

variable {c : WalCmd} {bs : Bytes} {m : ℤ}

/-- `WalCmd::GetType`. -/
def getType : WalCmd → WalCommandType
  | .createDatabase .. => .createDatabase
  | .dropDatabase .. => .dropDatabase
  | .createTable .. => .createTable
  | .dropTable .. => .dropTable
  | .importSegment .. => .importSegment
  | .append .. => .append
  | .delete .. => .delete
  | .setSegmentStatusSealed .. => .setSegmentStatusSealed
  | .updateSegmentBloomFilterData .. => .updateSegmentBloomFilterData
  | .checkpoint .. => .checkpoint
  | .createIndex .. => .createIndex
  | .dropIndex .. => .dropIndex
  | .compact .. => .compact

/-- What the `GetSizeInBytes` of the command counts behind the type code. -/
def payloadSize : WalCmd → Except Exn Int32
  | .createDatabase dbName dbDirTail =>
    .ok (Int32.ofNat (4 + dbName.length + 4 + dbDirTail.length))
  | .dropDatabase dbName => .ok (Int32.ofNat (4 + dbName.length))
  | .createTable dbName tableDirTail tableDef =>
    addSize (.ok (Int32.ofNat (4 + dbName.length + 4 + tableDirTail.length)))
      tableDef.getSizeInBytes
  | .dropTable dbName tableName => .ok (Int32.ofNat (4 + dbName.length + 4 + tableName.length))
  | .importSegment dbName tableName segmentInfo =>
    .ok (Int32.ofNat (4 + dbName.length + 4 + tableName.length) + segmentInfo.getSizeInBytes)
  | .append dbName tableName block =>
    addSize (.ok (Int32.ofNat (4 + dbName.length + 4 + tableName.length))) block.getSizeInBytes
  | .delete dbName tableName rowIds =>
    .ok (Int32.ofNat (4 + dbName.length + 4 + tableName.length + 4 + rowIds.length * 8))
  | .setSegmentStatusSealed data => .ok data.size
  | .updateSegmentBloomFilterData data => .ok data.size
  | .checkpoint _ _ catalogPath => .ok (Int32.ofNat (8 + 1 + 4 + catalogPath.length))
  | .createIndex dbName tableName indexDirTail indexBase =>
    .ok (Int32.ofNat (4 + dbName.length + 4 + tableName.length + 4 + indexDirTail.length) +
      indexBase.getSizeInBytes)
  | .dropIndex dbName tableName indexName =>
    .ok (Int32.ofNat (4 + dbName.length + 4 + tableName.length + 4 + indexName.length))
  | .compact dbName tableName newSegmentInfos deprecatedSegmentIds =>
    .ok (Int32.ofNat (4 + dbName.length + 4 + tableName.length + 4) + sumSizes getSizeInBytes
      newSegmentInfos + Int32.ofNat 4 + Int32.ofNat (deprecatedSegmentIds.length * 4))

/-- The `GetSizeInBytes` of the command. -/
def getSizeInBytes (c : WalCmd) : Except Exn Int32 := addSize (.ok (Int32.ofNat 1)) c.payloadSize

/-- What the `WriteAdv` of the command writes behind the type code. -/
def payload : WalCmd → Except Exn Bytes
  | .createDatabase dbName dbDirTail => .ok (writeString dbName ++ writeString dbDirTail)
  | .dropDatabase dbName => .ok (writeString dbName)
  | .createTable dbName tableDirTail tableDef =>
    writeThen (.ok (writeString dbName ++ writeString tableDirTail)) tableDef.writeAdv
  | .dropTable dbName tableName => .ok (writeString dbName ++ writeString tableName)
  | .importSegment dbName tableName segmentInfo =>
    .ok (writeString dbName ++ (writeString tableName ++ segmentInfo.writeBufferAdv))
  | .append dbName tableName block =>
    writeThen (.ok (writeString dbName ++ writeString tableName)) block.writeAdv
  | .delete dbName tableName rowIds =>
    .ok (writeString dbName ++ (writeString tableName ++ writeVector writePod rowIds))
  | .setSegmentStatusSealed data => .ok data.write
  | .updateSegmentBloomFilterData data => .ok data.write
  | .checkpoint maxCommitTs isFullCheckpoint catalogPath =>
    .ok (writePod maxCommitTs ++ (writePod isFullCheckpoint ++ writeString catalogPath))
  | .createIndex dbName tableName indexDirTail indexBase =>
    .ok (writeString dbName ++
      (writeString tableName ++ (writeString indexDirTail ++ indexBase.writeAdv)))
  | .dropIndex dbName tableName indexName =>
    .ok (writeString dbName ++ (writeString tableName ++ writeString indexName))
  | .compact dbName tableName newSegmentInfos deprecatedSegmentIds =>
    .ok (writeString dbName ++
        (writeString tableName ++ (writeVector writeBufferAdv newSegmentInfos ++
        writeVector writePod deprecatedSegmentIds)))

/-- The `WriteAdv` of the command. -/
def writeAdv (c : WalCmd) : Except Exn Bytes := writeThen (.ok (writePod c.getType.code)) c.payload

/-- The switch of `WalCmd::ReadAdv`. -/
def readPayload (ptrEnd : ℤ) : WalCommandType → Read WalCmd
  | .createDatabase => do
    let dbName ← readString
    let dbDirTail ← readString
    pure (.createDatabase dbName dbDirTail)
  | .dropDatabase => do
    let dbName ← readString
    pure (.dropDatabase dbName)
  | .createTable => do
    let dbName ← readString
    let tableDirTail ← readString
    let ptr ← tell
    let tableDef ← TableDef.readAdv (ptrEnd - ptr)
    pure (.createTable dbName tableDirTail tableDef)
  | .dropTable => do
    let dbName ← readString
    let tableName ← readString
    pure (.dropTable dbName tableName)
  | .importSegment => do
    let dbName ← readString
    let tableName ← readString
    let segmentInfo ← readBufferAdv
    pure (.importSegment dbName tableName segmentInfo)
  | .append => do
    let dbName ← readString
    let tableName ← readString
    let ptr ← tell
    let block ← DataBlock.readAdv (ptrEnd - ptr)
    pure (.append dbName tableName block)
  | .delete => do
    let dbName ← readString
    let tableName ← readString
    let rowIds ← readVector (readPod RowID)
    pure (.delete dbName tableName rowIds)
  | .setSegmentStatusSealed => do
    let data ← FilterData.read
    pure (.setSegmentStatusSealed data)
  | .updateSegmentBloomFilterData => do
    let data ← FilterData.read
    pure (.updateSegmentBloomFilterData data)
  | .checkpoint => do
    let maxCommitTs ← readPod Int64
    let isFullCheckpoint ← readPod Bool
    let catalogPath ← readString
    pure (.checkpoint maxCommitTs isFullCheckpoint catalogPath)
  | .createIndex => do
    let dbName ← readString
    let tableName ← readString
    let indexDirTail ← readString
    let ptr ← tell
    let indexBase ← IndexBase.readAdv (ptrEnd - ptr)
    pure (.createIndex dbName tableName indexDirTail indexBase)
  | .dropIndex => do
    let dbName ← readString
    let tableName ← readString
    let indexName ← readString
    pure (.dropIndex dbName tableName indexName)
  | .compact => do
    let dbName ← readString
    let tableName ← readString
    let newSegmentInfos ← readVector readBufferAdv
    let deprecatedSegmentIds ← readVector (readPod UInt32)
    pure (.compact dbName tableName newSegmentInfos deprecatedSegmentIds)
  | t => raise (.unrecoverable ("UNIMPLEMENTED ReadAdv for WAL command " ++ toString t.code.toInt8))

/-- `WalCmd::ReadAdv`. -/
def readAdv (maxBytes : ℤ) : Read WalCmd := do
  let start ← tell
  let code ← readPod UInt8
  match WalCommandType.ofCode code with
  | none =>
    raise (.unrecoverable ("UNIMPLEMENTED ReadAdv for WAL command " ++ toString code.toInt8))
  | some t =>
    let cmd ← readPayload (start + maxBytes) t
    let ptr ← tell
    if start + maxBytes - ptr < 0 then
      raise (.unrecoverable "ptr goes out of range when reading WalCmd")
    else pure cmd

/-! ## When the three functions agree -/

/-- The size function counts the command right. -/
def Counted : WalCmd → Prop
  | .createTable _ _ tableDef => tableDef.Serializable
  | .append _ _ block => block.Serializable
  | _ => True

/-- The commands that the codec carries: a created table needs serializable column types, an
appended block encodable columns. -/
def Encodable : WalCmd → Prop
  | .createTable _ _ tableDef => tableDef.Serializable
  | .append _ _ block => block.Encodable
  | _ => True

theorem Encodable.counted (h : c.Encodable) : c.Counted := by
  cases c with
  | createTable _ _ tableDef => exact h
  | append _ _ block => exact fun col hcol => (h col hcol).1
  | _ => trivial

/-- Two names of a command are counted right. -/
theorem sized_names (a b : Bytes) : Sized (.ok (writeString a ++ writeString b))
    (.ok (Int32.ofNat (4 + a.length + 4 + b.length))) True :=
  Sized.ok (by simp [stringSize]; omega)

theorem payload_sized : Sized c.payload c.payloadSize c.Counted := by
  cases c with
  | createTable dbName tableDirTail tableDef =>
    exact ((sized_names _ _).then tableDef.sized).congr (by simp [Counted])
  | append dbName tableName block =>
    exact ((sized_names _ _).then block.sized).congr (by simp [Counted])
  | setSegmentStatusSealed data => exact .of_length data.size_eq
  | updateSegmentBloomFilterData data => exact Sized.of_length data.size_eq
  | _ =>
    -- the lengths of the fields add up
    refine .of_length ?_
    simp only [getSizeInBytes_eq, sumSizes_eq getSizeInBytes_eq,
      IndexBase.getSizeInBytes_eq, ← Int32.ofNat_add, length_append, length_writeString,
      length_writePod, stringSize, length_writeVector, ConstantExpr.length_flatMap_writePod,
      Pod.width]
    try congr 1; omega

/-- **The size of a command is the number of bytes written exactly when it is counted right.** -/
theorem sized (c : WalCmd) : Sized c.writeAdv c.getSizeInBytes c.Counted := by
  have hcode : Sized (.ok (writePod c.getType.code)) (.ok (Int32.ofNat 1)) True :=
    Sized.ok (by simp [Pod.width])
  exact (hcode.then c.payload_sized).congr (by simp)

def byteCount : WalCmd → ℕ
  | .createDatabase dbName dbDirTail => 1 + (4 + dbName.length) + (4 + dbDirTail.length)
  | .dropDatabase dbName => 1 + (4 + dbName.length)
  | .createTable dbName tableDirTail tableDef =>
    1 + (4 + dbName.length) + (4 + tableDirTail.length) + tableDef.byteCount
  | .dropTable dbName tableName => 1 + (4 + dbName.length) + (4 + tableName.length)
  | .importSegment dbName tableName segmentInfo =>
    1 + (4 + dbName.length) + (4 + tableName.length) + segmentInfo.byteCount
  | .append dbName tableName block =>
    1 + (4 + dbName.length) + (4 + tableName.length) + block.byteCount
  | .delete dbName tableName rowIds =>
    1 + (4 + dbName.length) + (4 + tableName.length) + (4 + 8 * rowIds.length)
  | .setSegmentStatusSealed data => 1 + data.byteCount
  | .updateSegmentBloomFilterData data => 1 + data.byteCount
  | .checkpoint _ _ catalogPath => 1 + 8 + 1 + (4 + catalogPath.length)
  | .createIndex dbName tableName indexDirTail indexBase =>
    1 + (4 + dbName.length) + (4 + tableName.length) + (4 + indexDirTail.length) +
      indexBase.byteCount
  | .dropIndex dbName tableName indexName =>
    1 + (4 + dbName.length) + (4 + tableName.length) + (4 + indexName.length)
  | .compact dbName tableName newSegmentInfos deprecatedSegmentIds =>
    1 + (4 + dbName.length) + (4 + tableName.length) +
      (4 + (newSegmentInfos.map WalSegmentInfo.byteCount).sum)
      + (4 + 4 * deprecatedSegmentIds.length)

theorem length_of_writeAdv (hc : c.Counted) (hw : c.writeAdv = .ok bs) :
    bs.length = c.byteCount := by
  obtain ⟨_, b, ⟨⟩, hb, rfl⟩ := writeThen_eq_ok.mp hw
  rw [length_append, length_writePod]
  cases c with
  | createTable dbName tableDirTail tableDef =>
    obtain ⟨_, t, ⟨⟩, ht, rfl⟩ := writeThen_eq_ok.mp hb
    simp only [length_append, length_writeString, stringSize, Pod.width, byteCount,
      TableDef.length_of_writeAdv hc ht]
    omega
  | append dbName tableName block =>
    obtain ⟨_, t, ⟨⟩, ht, rfl⟩ := writeThen_eq_ok.mp hb
    simp only [length_append, length_writeString, stringSize, Pod.width, byteCount,
      DataBlock.length_of_writeAdv hc ht]
    omega
  | _ =>
    cases hb
    simp only [length_append, length_writeString, length_writePod, stringSize, Pod.width,
      length_writeVector, ConstantExpr.length_flatMap_writePod, FilterData.length_write_eq,
      IndexBase.length_writeAdv_eq, length_writeBufferAdv_eq,
      length_flatMap_eq WalSegmentInfo.length_writeBufferAdv_eq, byteCount]
    try omega

theorem writeAdv_pos (h : c.writeAdv = .ok bs) : 0 < bs.length :=
  pos_of_writeThen (by simp [Pod.width]) h

theorem writeAdv_of_encodable (hc : c.Encodable) : ∃ bs, c.writeAdv = .ok bs := by
  have hpayload : ∃ bs, c.payload = .ok bs := by
    cases c with
    | createTable dbName tableDirTail tableDef =>
      obtain ⟨b, hb⟩ := TableDef.writeAdv_of_serializable hc
      exact ⟨_, writeThen_eq_ok.mpr ⟨_, b, rfl, hb, rfl⟩⟩
    | append dbName tableName block =>
      obtain ⟨b, hb⟩ := DataBlock.writeAdv_of_encodable hc
      exact ⟨_, writeThen_eq_ok.mpr ⟨_, b, rfl, hb, rfl⟩⟩
    | _ => exact ⟨_, rfl⟩
  obtain ⟨b, hb⟩ := hpayload
  exact ⟨_, writeThen_eq_ok.mpr ⟨_, b, rfl, hb, rfl⟩⟩

/-- The switch reads the payload of an encodable command back. -/
theorem readPayload_reads {ptrEnd : ℤ} (hc : c.Encodable) (hw : c.payload = .ok bs)
    (hlim : bs.length < sizeLimit) (hend : (p + bs.length : ℤ) ≤ ptrEnd) :
    ReadsAt p (readPayload ptrEnd c.getType) bs c := by
  cases c with
  | createTable dbName tableDirTail tableDef =>
    obtain ⟨_, b, ⟨⟩, hb, rfl⟩ := writeThen_eq_ok.mp hw
    rw [append_assoc] at hlim hend ⊢
    refine string_bind hlim fun hlim => string_bind hlim fun hlim => .tell_bind ?_
    simp only [length_append] at hend
    exact (TableDef.readAdv_writeAdv hc hb hlim (by push_cast; omega)).last (ReadsAt.pure _)
  | append dbName tableName block =>
    obtain ⟨_, b, ⟨⟩, hb, rfl⟩ := writeThen_eq_ok.mp hw
    rw [append_assoc] at hlim hend ⊢
    refine string_bind hlim fun hlim => string_bind hlim fun hlim => .tell_bind ?_
    simp only [length_append] at hend
    exact (DataBlock.readAdv_writeAdv hc hb hlim (by push_cast; omega)).last (ReadsAt.pure _)
  | createDatabase | dropTable =>
    cases hw
    exact string_bind hlim fun hlim => string_last hlim (.pure _)
  | dropDatabase dbName =>
    cases hw
    exact string_last hlim (.pure _)
  | importSegment dbName tableName segmentInfo =>
    cases hw
    exact string_bind hlim fun hlim => string_bind hlim fun hlim =>
      (readBufferAdv_reads hlim).last (ReadsAt.pure _)
  | delete dbName tableName rowIds =>
    cases hw
    exact string_bind hlim fun hlim => string_bind hlim fun hlim =>
      (readPods_reads (by decide) hlim).last (.pure _)
  | setSegmentStatusSealed | updateSegmentBloomFilterData =>
    cases hw
    exact (FilterData.read_write hlim).last (ReadsAt.pure _)
  | checkpoint maxCommitTs isFullCheckpoint catalogPath =>
    cases hw
    exact .pod <| .pod <| string_last (lt_of_append (lt_of_append hlim)) (.pure _)
  | createIndex dbName tableName indexDirTail indexBase =>
    cases hw
    refine string_bind hlim fun hlim => string_bind hlim fun hlim => string_bind hlim fun hlim =>
      ReadsAt.tell_bind ?_
    simp only [length_append] at hend
    exact (IndexBase.readAdv_writeAdv hlim (by push_cast; omega)).last (ReadsAt.pure _)
  | dropIndex dbName tableName indexName =>
    cases hw
    exact string_bind hlim fun hlim => string_bind hlim fun hlim => string_last hlim (.pure _)
  | compact dbName tableName newSegmentInfos deprecatedSegmentIds =>
    cases hw
    refine string_bind hlim fun hlim => string_bind hlim fun hlim => ?_
    have hinfos : (writeVector writeBufferAdv newSegmentInfos).length < sizeLimit := by
      rw [length_append] at hlim
      omega
    obtain ⟨hcount, hitem⟩ := vector_lt (fun s => by rw [length_writeBufferAdv]; omega) hinfos
    exact (readVector_writeVector hcount fun s hs q _ _ =>
      readBufferAdv_reads (hitem s hs)).bind <|
      (readPods_reads (by decide) (lt_of_append hlim)).last (.pure _)

/-- **An encodable command is read back from its bytes.** -/
theorem readAdv_writeAdv (hc : c.Encodable)
    (hw : c.writeAdv = .ok bs) (hlim : bs.length < sizeLimit) (hm : bs.length ≤ m) :
    ReadsAt p (readAdv m) bs c := by
  obtain ⟨_, b, ⟨⟩, hb, rfl⟩ := writeThen_eq_ok.mp hw
  rw [length_append] at hm
  refine .tell_bind <| .pod ?_
  rw [WalCommandType.ofCode_code]
  refine (readPayload_reads hc hb (lt_of_append hlim) (by push_cast; omega)).last <|
    ReadsAt.tell_bind ?_
  rw [if_neg (by push_cast; omega)]
  exact .pure _

/-- **A command that is counted right but not encodable stops the reader.** -/
theorem readAdv_fails (hcount : c.Counted) (hc : ¬ c.Encodable)
    (hw : c.writeAdv = .ok bs) (hlim : bs.length < sizeLimit) (hm : bs.length ≤ m) :
    FailsAt p (readAdv m) bs := by
  obtain ⟨_, b, ⟨⟩, hb, rfl⟩ := writeThen_eq_ok.mp hw
  cases c with
  | append dbName tableName block =>
    obtain ⟨_, b', ⟨⟩, hb', rfl⟩ := writeThen_eq_ok.mp hb
    simp only [length_append, length_writeString, stringSize] at hlim hm
    refine .tell_bind <| .tail (.readPod _) ?_
    rw [WalCommandType.ofCode_code, append_assoc]
    refine .only <| .tail (readString_writeString (by omega)) <|
      FailsAt.tail (readString_writeString (by omega)) <| .tell_bind <|
      FailsAt.only <| DataBlock.readAdv_fails hcount hc hb' (by omega) ?_
    simp only [length_writeString, stringSize]
    omega
  | createTable _ _ tableDef => exact absurd hcount hc
  | _ => exact absurd trivial hc

end WalCmd

end Infinity.Wal
