import Infinity.Parser.Serialize

/-! # Column types and their codec (`parser/type/data_type.cpp`)

A `DataType` is a logical type with the type information that goes with it. The three codec
functions decide separately which bytes follow the type code: `getSizeInBytes` by whether there
is type information, `writeAdv` and `readAdv` by the logical type. They agree exactly on the
types that are `Serializable`.
-/

namespace Infinity.Parser

open Foundations

/-! ## Enumerations -/

/-- `LogicalType`, in the order of its codes. -/
inductive LogicalType where
  | boolean | tinyInt | smallInt | integer | bigInt | hugeInt
  | decimal | float | double | varchar
  | date | time | dateTime | timestamp | interval
  | array | tuple
  | point | line | lineSeg | box | circle
  | uuid | embedding | rowID | mixed | null | missing
  | tensor | tensorArray | sparse | emptyArray | invalid
  deriving DecidableEq, Repr

def LogicalType.all : List LogicalType :=
  [.boolean, .tinyInt, .smallInt, .integer, .bigInt, .hugeInt,
   .decimal, .float, .double, .varchar, .date, .time, .dateTime, .timestamp, .interval, .array,
   .tuple,
   .point, .line, .lineSeg, .box, .circle, .uuid, .embedding, .rowID, .mixed, .null, .missing,
   .tensor, .tensorArray, .sparse, .emptyArray, .invalid]

instance : Pod LogicalType :=
  Pod.ofList 1 LogicalType.all (by intro t; cases t <;> decide) (by decide)

/-- `EmbeddingDataType`. -/
inductive EmbeddingDataType where
  | bit | int8 | int16 | int32 | int64 | float | double | invalid
  deriving DecidableEq, Repr

def EmbeddingDataType.all : List EmbeddingDataType :=
  [.bit, .int8, .int16, .int32, .int64, .float, .double, .invalid]

instance : Pod EmbeddingDataType :=
  Pod.ofList 1 EmbeddingDataType.all (by intro t; cases t <;> decide) (by decide)

/-- `SparseStoreType`. -/
inductive SparseStoreType where
  | sort | notSort | invalid
  deriving DecidableEq, Repr

def SparseStoreType.all : List SparseStoreType := [.sort, .notSort, .invalid]

instance : Pod SparseStoreType :=
  Pod.ofList 1 SparseStoreType.all (by intro t; cases t <;> decide) (by decide)

/-! ## Type information -/

/-- `EMBEDDING_LIMIT_INTERNAL`. -/
def embeddingLimit : ℕ := 65536

/-- `EmbeddingInfo`; its factory asserts the bound on the dimension. -/
structure EmbeddingInfo where
  dataType : EmbeddingDataType
  dimension : ℕ
  dimension_le : dimension ≤ embeddingLimit
  deriving DecidableEq, Repr

/-- `EmbeddingInfo::Make`. -/
def EmbeddingInfo.make (dataType : EmbeddingDataType) (dimension : ℕ) : Except Exn EmbeddingInfo :=
  if h : dimension ≤ embeddingLimit then .ok ⟨dataType, dimension, h⟩
  else .error (.parser "Embedding dimension should less than 65536")

/-- `SparseInfo` as its three-argument factory builds it. The index type is not free: the factory
derives it from the dimension. -/
structure SparseInfo where
  dataType : EmbeddingDataType
  dimension : UInt64
  storeType : SparseStoreType
  dimension_pos : dimension ≠ 0
  dimension_le : dimension.toNat ≤ 2 ^ 63
  storeType_ne : storeType ≠ .invalid
  deriving DecidableEq, Repr

/-- The index type that `SparseInfo::Make` picks for a dimension. -/
def SparseInfo.indexTypeOf (dimension : UInt64) : EmbeddingDataType :=
  if dimension.toNat ≤ 2 ^ 7 then .int8
  else if dimension.toNat ≤ 2 ^ 15 then .int16
  else if dimension.toNat ≤ 2 ^ 31 then .int32
  else .int64

/-- `SparseInfo::Make`: a null pointer for dimension zero and for an invalid store type. -/
def SparseInfo.make (dataType : EmbeddingDataType) (dimension : UInt64)
    (storeType : SparseStoreType) : Except Exn (Option SparseInfo) :=
  if h : dimension = 0 ∨ storeType = .invalid then .ok none
  else if hle : dimension.toNat ≤ 2 ^ 63 then
    .ok (some ⟨dataType, dimension, storeType, fun h0 => h (.inl h0), hle, fun h0 => h (.inr h0)⟩)
  else .error (.parser "Sparse embedding dimension is too large")

theorem SparseInfo.make_fields (i : SparseInfo) :
    SparseInfo.make i.dataType i.dimension i.storeType = .ok (some i) := by
  have h : ¬ (i.dimension = 0 ∨ i.storeType = .invalid) :=
    fun h => h.elim i.dimension_pos i.storeType_ne
  rw [SparseInfo.make, dif_neg h, dif_pos i.dimension_le]

/-- `TypeInfo`: what a type needs beside its logical type. -/
inductive TypeInfo where
  | decimal (precision scale : Int64)
  | embedding (info : EmbeddingInfo)
  | sparse (info : SparseInfo)
  deriving DecidableEq, Repr

/-- The logical types that a piece of type information belongs to. -/
def TypeInfo.fits : TypeInfo → LogicalType → Bool
  | .decimal .., .decimal => true
  | .embedding _, .embedding => true
  | .embedding _, .tensor => true
  | .embedding _, .tensorArray => true
  | .sparse _, .sparse => true
  | _, _ => false

/-- `DataType`: a logical type, with type information of its own kind or with none. -/
structure DataType where
  type : LogicalType
  /-- `type_info_`, which may be a null pointer. -/
  typeInfo : Option TypeInfo
  fits : ∀ i ∈ typeInfo, i.fits type = true
  deriving DecidableEq, Repr

namespace DataType

def plain (t : LogicalType) : DataType := ⟨t, none, by simp⟩

def ofEmbedding (t : LogicalType) (h : ∀ i, (TypeInfo.embedding i).fits t = true)
    (i : EmbeddingInfo) : DataType :=
  ⟨t, some (.embedding i), by simpa using h i⟩

def ofDecimal (precision scale : Int64) : DataType :=
  ⟨.decimal, some (.decimal precision scale), by simp [TypeInfo.fits]⟩

def ofSparse (i : SparseInfo) : DataType := ⟨.sparse, some (.sparse i), by simp [TypeInfo.fits]⟩

/-- Every type is plain or has the type information of its logical type. -/
theorem eq_plain_or (t : DataType) :
    (∃ ty, t = plain ty) ∨ (∃ precision scale, t = ofDecimal precision scale) ∨
    (∃ ty h i, t = ofEmbedding ty h i) ∨ ∃ i, t = ofSparse i := by
  obtain ⟨ty, info, hfits⟩ := t
  rcases info with _ | ⟨precision, scale⟩ | i | i
  · exact .inl ⟨ty, rfl⟩
  · obtain rfl : ty = .decimal := by
      have := hfits _ rfl
      cases ty <;> simp [TypeInfo.fits] at this ⊢
    exact .inr (.inl ⟨precision, scale, rfl⟩)
  · have hty : ∀ j, (TypeInfo.embedding j).fits ty := by
      have := hfits _ rfl
      cases ty <;> simp [TypeInfo.fits] at this ⊢
    exact .inr (.inr (.inl ⟨ty, hty, i, rfl⟩))
  · obtain rfl : ty = .sparse := by
      have := hfits _ rfl
      cases ty <;> simp [TypeInfo.fits] at this ⊢
    exact .inr (.inr (.inr ⟨i, rfl⟩))

/-- The logical types that carry an embedding's type information. -/
theorem eq_of_embedding_fits {ty : LogicalType} (h : ∀ i, (TypeInfo.embedding i).fits ty) :
    ty = .embedding ∨ ty = .tensor ∨ ty = .tensorArray := by
  have := h ⟨.bit, 0, by decide⟩
  cases ty <;> simp [TypeInfo.fits] at this ⊢

/-! ## Width of a value -/

/-- `type_size`, the number of bytes of a value of a logical type. -/
def logicalTypeWidth : LogicalType → ℕ
  | .boolean | .tinyInt => 1
  | .smallInt => 2
  | .integer | .float | .date | .time | .tuple => 4
  | .bigInt | .double | .dateTime | .timestamp | .interval | .array | .embedding | .rowID
  | .tensor | .tensorArray => 8
  | .hugeInt | .decimal | .varchar | .point | .uuid | .mixed | .sparse => 16
  | .line | .circle => 24
  | .lineSeg | .box => 32
  | .null | .missing | .emptyArray | .invalid => 0

/-- `embedding_type_width`; bits are packed and have no width of their own. -/
def embeddingDataWidth : EmbeddingDataType → ℕ
  | .bit | .invalid => 0
  | .int8 => 1
  | .int16 => 2
  | .int32 | .float => 4
  | .int64 | .double => 8

/-- `EmbeddingType::EmbeddingSize`. -/
def embeddingSize (dataType : EmbeddingDataType) (dimension : ℕ) : Except Exn ℕ :=
  match dataType with
  | .invalid => .error (.parser "Invalid embedding data type")
  | .bit => .ok ((dimension + 7) / 8)
  | t => .ok (dimension * embeddingDataWidth t)

/-- `DataType::Size`: the type information decides, except for the two tensor types. -/
def size (t : DataType) : Except Exn ℕ :=
  match t.typeInfo, t.type with
  | some _, .tensor | some _, .tensorArray => .ok (logicalTypeWidth t.type)
  | some (.decimal ..), _ => .ok 16
  | some (.embedding i), _ => embeddingSize i.dataType i.dimension
  | some (.sparse _), _ => .ok 16
  | none, ty => .ok (logicalTypeWidth ty)

/-! ## Codec -/

/-- `DataType::GetSizeInBytes`: it looks at the type information first. -/
def getSizeInBytes (t : DataType) : Except Exn Int32 :=
  match t.typeInfo with
  | none => .ok (Int32.ofNat 1)
  | some _ =>
    match t.type with
    | .array => .error (.parser "Array isn't implemented here.")
    | .decimal => .ok (Int32.ofNat (1 + 8 * 2))
    | .tensor | .tensorArray | .embedding => .ok (Int32.ofNat (1 + 1 + 4))
    | .sparse => .ok (Int32.ofNat (1 + 1 * 2 + 8 + 1))
    | ty => .error (.parser ("Unexpected type " ++ toString (Pod.code ty) ++ " here."))

/-- `DataType::WriteAdv`: it looks at the logical type first. -/
def writeAdv (t : DataType) : Except Exn Bytes :=
  match t.type with
  | .array => .error (.parser "Array isn't implemented here.")
  | .decimal =>
    match t.typeInfo with
    | some (.decimal precision scale) =>
      .ok (writePod t.type ++ (writePod precision ++ writePod scale))
    -- a decimal without type information is written with zeros in its place
    | _ => .ok (writePod t.type ++ (writePod (0 : Int64) ++ writePod (0 : Int64)))
  | .tensor | .tensorArray | .embedding =>
    match t.typeInfo with
    | some (.embedding i) =>
      .ok (writePod t.type ++ (writePod i.dataType ++ writePod (Int32.ofNat i.dimension)))
    | _ => .error (.parser "kEmbedding associated type_info is nullptr here.")
  | .sparse =>
    match t.typeInfo with
    | some (.sparse i) =>
      .ok (writePod t.type ++ (writePod i.dataType ++ (writePod (SparseInfo.indexTypeOf i.dimension)
        ++ (writePod i.dimension ++ writePod i.storeType))))
    | _ => .error (.undefined "null sparse type_info")
  | _ => .ok (writePod t.type)

/-- The embedding branch of `DataType::ReadAdv`. -/
def readEmbedding (t : LogicalType) (h : ∀ i, (TypeInfo.embedding i).fits t = true) :
    Read DataType := do
  let dataType ← readPod EmbeddingDataType
  let dimension ← readPod Int32
  let info ← ofExcept (EmbeddingInfo.make dataType (toSizeT dimension))
  pure (ofEmbedding t h info)

/-- The sparse branch of `DataType::ReadAdv`; the factory's null pointer is followed. -/
def readSparse : Read DataType := do
  let dataType ← readPod EmbeddingDataType
  let indexType ← readPod EmbeddingDataType
  let dimension ← readPod UInt64
  let storeType ← readPod SparseStoreType
  let info ← ofExcept (SparseInfo.make dataType dimension storeType)
  match info with
  | none => raise (.undefined "null sparse type_info")
  | some i =>
    if indexType = SparseInfo.indexTypeOf i.dimension then
      pure (ofSparse i)
    else raise (.parser "Sparse index type is not consistent.")

/-- The switch of `DataType::ReadAdv` over the logical type. -/
def readBody : LogicalType → Read DataType
  | .array => raise (.parser "Array isn't implemented here.")
  | .decimal => do
    let precision ← readPod Int64
    let scale ← readPod Int64
    pure (ofDecimal precision scale)
  | .tensor => readEmbedding .tensor fun _ => rfl
  | .tensorArray => readEmbedding .tensorArray fun _ => rfl
  | .embedding => readEmbedding .embedding fun _ => rfl
  | .sparse => readSparse
  | t => pure (plain t)

/-- `DataType::ReadAdv`. -/
def readAdv (maxBytes : ℤ) : Read DataType := do
  let start ← tell
  let type ← readPod LogicalType
  let t ← readBody type
  let ptr ← tell
  if start + maxBytes - ptr < 0 then
    raise (.parser "ptr goes out of range when reading DataType")
  else pure t

/-- The types on which the three codec functions agree: not an array, and with the type
information that the logical type asks for. -/
def Serializable (t : DataType) : Bool :=
  match t.type with
  | .array => false
  | .decimal | .tensor | .tensorArray | .embedding | .sparse => t.typeInfo.isSome
  | _ => true

def byteCount (t : DataType) : ℕ :=
  match t.typeInfo with
  | none => 1
  | some (.decimal ..) => 17
  | some (.embedding _) => 6
  | some (.sparse _) => 12

/-! ## The codec functions agree on serializable types -/

theorem readEmbedding_reads {p : ℕ} (t : LogicalType)
    (h : ∀ i, (TypeInfo.embedding i).fits t) (i : EmbeddingInfo) :
    ReadsAt p (readEmbedding t h) (writePod i.dataType ++ writePod (Int32.ofNat i.dimension))
    (ofEmbedding t h i) := by
  have hlt : i.dimension < sizeLimit := Nat.lt_of_le_of_lt i.dimension_le (by decide)
  have hmake : EmbeddingInfo.make i.dataType (toSizeT (Int32.ofNat i.dimension)) = .ok i := by
    rw [toSizeT_ofNat hlt, EmbeddingInfo.make, dif_pos i.dimension_le]
  exact .pod <| (ReadsAt.readPod _).last <| (readsAt_ofExcept hmake).last (ReadsAt.pure _)

theorem readSparse_reads {p : ℕ} (i : SparseInfo) :
    ReadsAt p readSparse (writePod i.dataType ++ (writePod (SparseInfo.indexTypeOf i.dimension)
      ++ (writePod i.dimension ++ writePod i.storeType))) (ofSparse i) := by
  refine .pod <| .pod <| .pod <| (ReadsAt.readPod _).last <|
    (readsAt_ofExcept i.make_fields).last ?_
  simp only [if_true]
  exact .pure _

/-- The bytes of a serializable type are its code and a body that the switch reads back. -/
theorem exists_body {t : DataType} (ht : t.Serializable) :
      ∃ body, t.writeAdv = .ok (writePod t.type ++ body) ∧
      ∀ p, ReadsAt p (readBody t.type) body t := by
  rcases eq_plain_or t with ⟨ty, rfl⟩ | ⟨precision, scale, rfl⟩ | ⟨ty, h, i, rfl⟩ | ⟨i, rfl⟩
  · refine ⟨[], ?_, ?_⟩
    · cases ty <;> first | rfl | cases ht
    · intro p
      cases ty <;> first | exact .pure _ | cases ht
  · exact ⟨_, rfl, fun p => ReadsAt.pod <| (ReadsAt.readPod _).last (ReadsAt.pure _)⟩
  · rcases eq_of_embedding_fits h with rfl | rfl | rfl
    all_goals exact ⟨_, rfl, fun p => readEmbedding_reads _ h i⟩
  · exact ⟨_, rfl, fun p => readSparse_reads i⟩

theorem writeAdv_of_serializable {t : DataType} (ht : t.Serializable) : ∃ bs, t.writeAdv = .ok bs :=
  let ⟨_, h, _⟩ := exists_body ht
  ⟨_, h⟩

theorem length_of_writeAdv {t : DataType} {bs : Bytes} (ht : t.Serializable)
    (hw : t.writeAdv = .ok bs) : bs.length = t.byteCount := by
  rcases eq_plain_or t with ⟨ty, rfl⟩ | ⟨precision, scale, rfl⟩ | ⟨ty, h, i, rfl⟩ | ⟨i, rfl⟩
  · cases ty <;> first | (cases ht; done) | (cases hw; rfl)
  · cases hw
    rfl
  · rcases eq_of_embedding_fits h with rfl | rfl | rfl
    all_goals cases hw
    all_goals rfl
  · cases hw
    rfl

/-- **A serializable type is read back from its bytes.** -/
theorem readAdv_writeAdv {p : ℕ} {m : ℤ} {t : DataType} {bs : Bytes}
    (ht : t.Serializable) (hw : t.writeAdv = .ok bs) (hm : bs.length ≤ m) :
    ReadsAt p (readAdv m) bs t := by
  obtain ⟨body, hbody, hread⟩ := exists_body ht
  obtain rfl : writePod t.type ++ body = bs := by
    rw [hbody] at hw
    injection hw
  refine .tell_bind <| .pod <| (hread _).last <| .tell_bind ?_
  rw [List.length_append] at hm
  rw [if_neg (by push_cast at hm ⊢; omega)]
  exact .pure _

/-- The size function counts the written bytes exactly for serializable types. -/
theorem sized (t : DataType) : Sized t.writeAdv t.getSizeInBytes (t.Serializable) := by
  intro bs hw
  rcases eq_plain_or t with ⟨ty, rfl⟩ | ⟨precision, scale, rfl⟩ | ⟨ty, h, i, rfl⟩ | ⟨i, rfl⟩
  · -- only a decimal without type information is written longer than it is counted
    cases ty <;> cases hw
    all_goals exact ⟨1, by simp [Pod.width], rfl, by simp [Pod.width, Serializable, plain]⟩
  · cases hw
    exact ⟨17, by simp [Pod.width], rfl, by simp [Pod.width, Serializable, ofDecimal]⟩
  · rcases eq_of_embedding_fits h with rfl | rfl | rfl
    all_goals cases hw
    all_goals exact ⟨6, by simp [Pod.width], rfl, by simp [Pod.width, Serializable, ofEmbedding]⟩
  · cases hw
    exact ⟨12, by simp [Pod.width], rfl, by simp [Pod.width, Serializable, ofSparse]⟩

/-- What `EmbeddingInfo::EmbeddingDataTypeToString` raises, if it does. -/
def embeddingDataTypeToStringError : EmbeddingDataType → Option Exn
  | .invalid => some (.parser "Unexpected embedding type")
  | _ => none

/-- What `DataType::ToString` raises, if it does. -/
def toStringError (t : DataType) : Option Exn :=
  match t.typeInfo with
  | some (.embedding info) => embeddingDataTypeToStringError info.dataType
  | some (.sparse info) => (embeddingDataTypeToStringError info.dataType).or
    (embeddingDataTypeToStringError (SparseInfo.indexTypeOf info.dimension))
  | _ => none

end DataType

end Infinity.Parser
