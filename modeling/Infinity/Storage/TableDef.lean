import Infinity.Parser.DataType
import Infinity.Parser.ConstantExpr

/-! # Column and table definitions (`column_def.h`, `table_def.cpp`)

* `TableDef.readAdv_writeAdv`: a table whose column types are serializable is read back from its
  bytes, when these number fewer than `2 ^ 31`.
* `TableDef.sized`: the size is the number of bytes written exactly for such tables.
-/

namespace Infinity.Storage

open Foundations Infinity.Parser List

variable {bs : Bytes} {p : ℕ} {m : ℤ} {s : Finset ConstraintType}

/-- `ConstraintType`. -/
inductive ConstraintType where
  | null | notNull | primaryKey | unique | invalid
  deriving DecidableEq, Repr

/-- All constraints in the order of their codes, which is also the order of a `std::set`. -/
def ConstraintType.all : List ConstraintType := [.null, .notNull, .primaryKey, .unique, .invalid]

theorem ConstraintType.mem_all (c : ConstraintType) : c ∈ ConstraintType.all := by
  cases c <;> decide

instance : Pod ConstraintType := Pod.ofList 1 ConstraintType.all ConstraintType.mem_all (by decide)

def constraintList (s : Finset ConstraintType) : List ConstraintType :=
  ConstraintType.all.filter (· ∈ s)

theorem toFinset_constraintList : (constraintList s).toFinset = s := by
  ext c
  simp [constraintList, ConstraintType.mem_all]

theorem length_constraintList : (constraintList s).length ≤ 5 := length_filter_le _ _

/-- `ColumnDef`; its constructors replace a missing default by a null literal. -/
structure ColumnDef where
  id : Int64
  columnType : DataType
  name : Bytes
  constraints : Finset ConstraintType
  defaultExpr : ConstantExpr
  buildBloomFilter : Bool

namespace ColumnDef

variable {c : ColumnDef}

def coreBytes (c : ColumnDef) : Bytes :=
  writeString c.name ++ (writeVector writePod (constraintList c.constraints) ++
    c.defaultExpr.writeAdv)

def tailBytes (c : ColumnDef) : Bytes :=
  c.coreBytes ++ writePod (if c.buildBloomFilter then (1 : UInt8) else 0)

/-- The loop body of `TableDef::WriteAdv`. -/
def writeAdv (c : ColumnDef) : Except Exn Bytes :=
  writeThen (.ok (writePod c.id)) (writeThen c.columnType.writeAdv (.ok c.tailBytes))

/-- The loop body of `TableDef::GetSizeInBytes`. -/
def getSizeInBytes (c : ColumnDef) : Except Exn Int32 :=
  addSize (.ok (Int32.ofNat 8)) (addSize c.columnType.getSizeInBytes
    (.ok (Int32.ofNat (4 + c.name.length) + Int32.ofNat 4 +
      Int32.ofNat ((constraintList c.constraints).length * 1)
      + c.defaultExpr.getSizeInBytes + Int32.ofNat 1)))

/-- The loop body of `TableDef::ReadAdv`. The bytes left are counted once, before the type, and
the stale count is passed on to the default value as well. -/
def readAdv (ptrEnd : ℤ) : Read ColumnDef := do
  let id ← readPod Int64
  let ptr ← tell
  let maxBytes := ptrEnd - ptr
  if maxBytes ≤ 0 then raise (.unrecoverable "ptr goes out of range when reading TableDef")
  else
    let columnType ← DataType.readAdv maxBytes
    let name ← readString
    let constraints ← readVector (readPod ConstraintType)
    let defaultExpr ← ConstantExpr.readAdv maxBytes
    let bf ← readPod UInt8
    pure ⟨id, columnType, name, constraints.toFinset, defaultExpr, bf != 0⟩

@[simp] theorem length_coreBytes : c.coreBytes.length =
    4 + c.name.length + (4 + (constraintList c.constraints).length) +
    c.defaultExpr.writeAdv.length := by
  simp only [coreBytes, length_append, length_writeString, stringSize, length_writeVector,
    ConstantExpr.length_flatMap_writePod, Pod.width]
  omega

theorem length_tailBytes (c : ColumnDef) : c.tailBytes.length =
    4 + c.name.length + (4 + (constraintList c.constraints).length) +
    (c.defaultExpr.writeAdv.length + 1) := by
  simp only [tailBytes, length_append, length_coreBytes, length_writePod, Pod.width]
  omega

/-- A column is its id, its type and what follows. -/
theorem sized_typed {tail : Bytes} {n : ℕ} (hn : n = tail.length) :
    Sized (writeThen (.ok (writePod c.id)) (writeThen c.columnType.writeAdv (.ok tail)))
      (addSize (.ok (Int32.ofNat 8)) (addSize c.columnType.getSizeInBytes (.ok (Int32.ofNat n))))
      (c.columnType.Serializable) := by
  have hid : Sized (.ok (writePod c.id)) (.ok (Int32.ofNat 8)) True :=
    Sized.ok (by simp [Pod.width])
  exact (hid.then ((DataType.sized c.columnType).then (.ok hn))).congr (by simp)

theorem sized (c : ColumnDef) : Sized c.writeAdv c.getSizeInBytes (c.columnType.Serializable) := by
  rw [getSizeInBytes, ConstantExpr.getSizeInBytes_eq]
  simp only [← Int32.ofNat_add]
  exact c.sized_typed (by rw [length_tailBytes]; omega)

/-- The name, the constraints and the default value are read back, whatever is read next. -/
theorem coreBytes_reads {β : Type} {k : Bytes → List ConstraintType → ConstantExpr → Read β} {b : β}
    (hlim : c.coreBytes.length < sizeLimit) (hm : c.coreBytes.length ≤ m)
    (hk : ∀ q, ReadsAt q (k c.name (constraintList c.constraints) c.defaultExpr) bs b) : ReadsAt p (do
      let name ← readString
      let constraints ← readVector (readPod ConstraintType)
      let defaultExpr ← ConstantExpr.readAdv m
      k name constraints defaultExpr) (c.coreBytes ++ bs) b := by
  rw [length_coreBytes] at hlim hm
  have hcount : (constraintList c.constraints).length < sizeLimit :=
    (length_constraintList).trans_lt (by decide)
  rw [coreBytes, append_assoc, append_assoc]
  exact (readString_writeString (by omega)).bind <|
    (readVector_writeVector hcount fun a _ q _ _ => .readPod a).bind <|
    (ConstantExpr.readAdv_writeAdv (by omega) (by omega)).bind (hk _)

theorem tailBytes_reads {id : Int64} {t : DataType}
    (hlim : c.tailBytes.length < sizeLimit) (hm : c.tailBytes.length ≤ m) : ReadsAt p (do
      let name ← readString
      let constraints ← readVector (readPod ConstraintType)
      let defaultExpr ← ConstantExpr.readAdv m
      let bf ← readPod UInt8
      pure ⟨id, t, name, constraints.toFinset, defaultExpr, bf != 0⟩) c.tailBytes
      { c with id := id, columnType := t } := by
  rw [tailBytes, length_append] at hlim hm
  push_cast at hm
  refine coreBytes_reads (by omega) (by omega) fun q => (ReadsAt.readPod _).last ?_
  have hbf : ((if c.buildBloomFilter then (1 : UInt8) else 0) != 0) = c.buildBloomFilter := by
    cases c.buildBloomFilter <;> rfl
  rw [hbf, toFinset_constraintList]
  exact .pure _

theorem readAdv_writeAdv {ptrEnd : ℤ} (hc : c.columnType.Serializable) (hw : c.writeAdv = .ok bs)
    (hlim : bs.length < sizeLimit) (hend : (p + bs.length : ℤ) ≤ ptrEnd) :
    ReadsAt p (readAdv ptrEnd) bs c := by
  obtain ⟨_, _, ⟨⟩, h, rfl⟩ := writeThen_eq_ok.mp hw
  obtain ⟨b, _, hb, ⟨⟩, rfl⟩ := writeThen_eq_ok.mp h
  have htail := length_tailBytes c
  simp only [length_append, length_writePod, Pod.width] at hlim hend
  refine .pod <| .tell_bind ?_
  simp only [length_writePod, Pod.width]
  rw [if_neg (by push_cast; omega)]
  exact (DataType.readAdv_writeAdv hc hb (by push_cast; omega)).bind
    (tailBytes_reads (by omega) (by push_cast; omega))

def byteCount (c : ColumnDef) : ℕ :=
  8 + c.columnType.byteCount + (4 + c.name.length + (4 + (constraintList c.constraints).length)
    + (c.defaultExpr.byteCount + 1))

theorem length_of_writeAdv (hc : c.columnType.Serializable)
    (hw : c.writeAdv = .ok bs) : bs.length = c.byteCount := by
  obtain ⟨_, _, ⟨⟩, h, rfl⟩ := writeThen_eq_ok.mp hw
  obtain ⟨b, _, hb, ⟨⟩, rfl⟩ := writeThen_eq_ok.mp h
  simp only [length_append, length_writePod, length_tailBytes, Pod.width, byteCount,
    DataType.length_of_writeAdv hc hb, ConstantExpr.length_writeAdv_eq]
  omega

theorem writeAdv_pos (h : c.writeAdv = .ok bs) : 0 < bs.length :=
  pos_of_writeThen (by simp [Pod.width]) h

/-- What `ColumnDef::ToString` raises, if it does. -/
def toStringError (c : ColumnDef) : Option Exn :=
  c.columnType.toStringError.or c.defaultExpr.toStringError

end ColumnDef

/-- `TableDef`: its map from column names to indices is recomputed from the columns. -/
structure TableDef where
  schemaName : Bytes
  tableName : Bytes
  columns : List ColumnDef

namespace TableDef

variable {t : TableDef}

/-- `TableDef::GetSizeInBytes`. -/
def getSizeInBytes (t : TableDef) : Except Exn Int32 :=
  addSize (.ok (Int32.ofNat (4 + t.schemaName.length) + Int32.ofNat (4 + t.tableName.length)
    + Int32.ofNat 4)) (sizeAll ColumnDef.getSizeInBytes t.columns)

/-- `TableDef::WriteAdv`. -/
def writeAdv (t : TableDef) : Except Exn Bytes :=
  writeThen (.ok (writeString t.schemaName ++ (writeString t.tableName ++
    writePod (Int32.ofNat t.columns.length)))) (writeAll ColumnDef.writeAdv t.columns)

/-- `TableDef::ReadAdv`. -/
def readAdv (maxBytes : ℤ) : Read TableDef := do
  let start ← tell
  if maxBytes ≤ 0 then raise (.unrecoverable "ptr goes out of range when reading TableDef")
  else
    let schemaName ← readString
    let tableName ← readString
    let columnsSize ← readPod Int32
    let columns ← readMany columnsSize.toNatClampNeg (ColumnDef.readAdv (start + maxBytes))
    let ptr ← tell
    if start + maxBytes - ptr < 0 then
      raise (.unrecoverable "ptr goes out of range when reading TableDef")
    else pure ⟨schemaName, tableName, columns⟩

def Serializable (t : TableDef) : Prop := ∀ c ∈ t.columns, c.columnType.Serializable = true

instance (t : TableDef) : Decidable t.Serializable :=
  inferInstanceAs (Decidable (∀ c ∈ t.columns, _))

/-- The size is the number of bytes written exactly when every column type is serializable. -/
theorem sized (t : TableDef) : Sized t.writeAdv t.getSizeInBytes t.Serializable := by
  have hhead : Sized (.ok (writeString t.schemaName ++ (writeString t.tableName ++
      writePod (Int32.ofNat t.columns.length)))) (.ok (Int32.ofNat (4 + t.schemaName.length)
      + Int32.ofNat (4 + t.tableName.length) + Int32.ofNat 4)) True := by
    simp only [← Int32.ofNat_add]
    exact .ok (by simp [stringSize, Pod.width]; omega)
  exact (hhead.then (.all ColumnDef.sized t.columns)).congr (by simp [Serializable])

/-- **A serializable table definition is read back from its bytes.** -/
theorem readAdv_writeAdv (ht : t.Serializable) (hw : t.writeAdv = .ok bs)
    (hlim : bs.length < sizeLimit) (hm : bs.length ≤ m) : ReadsAt p (readAdv m) bs t := by
  obtain ⟨_, cols, ⟨⟩, hcols, rfl⟩ := writeThen_eq_ok.mp hw
  have hcount := length_le_of_writeAll (fun _ _ => ColumnDef.writeAdv_pos) hcols
  simp only [length_append, length_writeString, stringSize, length_writePod, Pod.width] at hlim hm
  refine .tell_bind ?_
  rw [if_neg (by omega), append_assoc, append_assoc]
  refine (readString_writeString (by omega)).bind <| (readString_writeString (by omega)).bind <|
    .pod ?_
  rw [toNatClampNeg_ofNat (by omega)]
  refine .last (readsAt_writeAll hcols fun c hc b q hb _ hq => ?_) ?_
  · simp only [length_writeString, stringSize, length_writePod, Pod.width] at hq
    exact ColumnDef.readAdv_writeAdv (ht c hc) hb (by omega) (by omega)
  · refine .tell_bind ?_
    simp only [length_writeString, stringSize, length_writePod, Pod.width]
    rw [if_neg (by push_cast; omega)]
    exact .pure _

def byteCount (t : TableDef) : ℕ := (4 + t.schemaName.length) + (4 + t.tableName.length) + 4
    + (t.columns.map ColumnDef.byteCount).sum

theorem length_of_writeAdv (ht : t.Serializable) (hw : t.writeAdv = .ok bs) :
    bs.length = t.byteCount := by
  obtain ⟨_, cols, ⟨⟩, hcols, rfl⟩ := writeThen_eq_ok.mp hw
  have hlen : cols.length = (t.columns.map ColumnDef.byteCount).sum :=
    length_of_writeAll (fun c hc _ hb => ColumnDef.length_of_writeAdv (ht c hc) hb) hcols
  simp only [length_append, length_writeString, stringSize, length_writePod, Pod.width, hlen,
    byteCount]
  omega

theorem writeAdv_of_serializable (ht : t.Serializable) : ∃ bs, t.writeAdv = .ok bs := by
  have h : ∀ c ∈ t.columns, ∃ b, c.writeAdv = .ok b := by
    intro c hc
    obtain ⟨b, hb⟩ := DataType.writeAdv_of_serializable (ht c hc)
    exact ⟨_, writeThen_eq_ok.mpr ⟨_, _, rfl, writeThen_eq_ok.mpr ⟨b, _, hb, rfl, rfl⟩, rfl⟩⟩
  obtain ⟨cols, hcols⟩ := writeAll_of_forall h
  exact ⟨_, writeThen_eq_ok.mpr ⟨_, cols, rfl, hcols, rfl⟩⟩

end TableDef

end Infinity.Storage
