import Infinity.Foundations.Outcome
import Infinity.Storage.IndexBase

/-! # Index definitions in the full checkpoint (`IndexBase::Serialize`, `IndexBase::Deserialize`)

A full checkpoint writes an index definition as a JSON object, a log record as bytes. The JSON
object of a full-text index has no option flags, and reading it gives the default.

* `IndexBase.codecsAgree_iff`: both come back exactly if a full-text index has the default
flags. -/

namespace Infinity.Storage

open Foundations Infinity.Parser

/-! ## JSON objects -/

/-- The values that occur in the object of an index. -/
inductive JsonValue where
  | string (s : Bytes)
  | unsigned (n : UInt64)
  | integer (n : Int64)
  | strings (ss : List Bytes)
  deriving DecidableEq, Repr

/-- A JSON object. -/
abbrev JsonObject := List (String × JsonValue)

namespace JsonObject

/-- `operator[]` of a constant object: a missing key is not checked. -/
def get (o : JsonObject) (key : String) : Except Exn JsonValue :=
  match o.find? (·.1 = key) with
  | some p => .ok p.2
  | none => .error (.undefined ("json key " ++ key))

def getString (o : JsonObject) (key : String) : Except Exn Bytes := do
  match ← o.get key with
  | .string s => .ok s
  | _ => .error (.undefined "json type_error")

def getStrings (o : JsonObject) (key : String) : Except Exn (List Bytes) := do
  match ← o.get key with
  | .strings ss => .ok ss
  | _ => .error (.undefined "json type_error")

/-- The conversion to `size_t`. -/
def getUnsigned (o : JsonObject) (key : String) : Except Exn UInt64 := do
  match ← o.get key with
  | .unsigned n => .ok n
  | .integer n => .ok n.toUInt64
  | _ => .error (.undefined "json type_error")

def getInteger (o : JsonObject) (key : String) : Except Exn Int64 := do
  match ← o.get key with
  | .unsigned n => .ok n.toInt64
  | .integer n => .ok n
  | _ => .error (.undefined "json type_error")

end JsonObject

/-! ## Names of enumerators -/

def text (s : String) : Bytes := s.toList.map fun c => UInt8.ofNat c.toNat

/-- `IndexInfo::IndexTypeToString`. -/
def IndexType.toText : IndexType → Except Exn Bytes
  | .ivfFlat => .ok (text "IVFFlat")
  | .hnsw => .ok (text "HNSW")
  | .fullText => .ok (text "FULLTEXT")
  | .secondary => .ok (text "SECONDARY")
  | .emvb => .ok (text "EMVB")
  | .bmp => .ok (text "BMP")
  | .invalid => .error (.parser "Invalid conflict type.")

/-- `IndexInfo::StringToIndexType`. -/
def IndexType.ofText (s : Bytes) : IndexType :=
  if s = text "IVFFlat" then .ivfFlat
  else if s = text "HNSW" then .hnsw
  else if s = text "FULLTEXT" then .fullText
  else if s = text "SECONDARY" then .secondary
  else if s = text "EMVB" then .emvb
  else if s = text "BMP" then .bmp
  else .invalid

/-- `MetricTypeToString`. -/
def MetricType.toText : MetricType → Bytes
  | .cosine => text "cos"
  | .innerProduct => text "ip"
  | .l2 => text "l2"
  | .invalid => text "Invalid"

/-- `StringToMetricType`. -/
def MetricType.ofText (s : Bytes) : MetricType :=
  if s = text "cos" then .cosine
  else if s = text "ip" then .innerProduct
  else if s = text "l2" then .l2
  else .invalid

/-- `HnswEncodeTypeToString`. -/
def HnswEncodeType.toText : HnswEncodeType → Bytes
  | .plain => text "plain"
  | .lvq => text "lvq"
  | .invalid => text "invalid"

/-- `StringToHnswEncodeType`. -/
def HnswEncodeType.ofText (s : Bytes) : HnswEncodeType :=
  if s = text "plain" then .plain
  else if s = text "lvq" then .lvq
  else .invalid

theorem MetricType.ofText_toText (t : MetricType) : MetricType.ofText t.toText = t := by
  cases t <;> decide

theorem HnswEncodeType.ofText_toText (t : HnswEncodeType) : HnswEncodeType.ofText t.toText = t := by
  cases t <;> decide

/-- The stored number of a compression, an `i8`. -/
def BMPCompressType.number (t : BMPCompressType) : Int64 :=
  Int64.ofNat (BMPCompressType.all.idxOf t)

/-- The compression with a stored number; other numbers are no enumerators. -/
def BMPCompressType.ofNumber (n : Int64) : Except Exn BMPCompressType :=
  match BMPCompressType.all[n.toNatClampNeg]? with
  | some t => .ok t
  | none => .error (.undefined "BMPCompressType")

theorem BMPCompressType.ofNumber_number (t : BMPCompressType) :
    BMPCompressType.ofNumber t.number = .ok t := by
  cases t <;> rfl

/-! ## The codec -/

/-- `OPTION_FLAG_ALL`: term payload, document payload, positions, term frequencies and block
maxima. -/
def optionFlagAll : UInt8 := 31

namespace IndexParams

/-- What `Serialize` of a subclass adds to the object. -/
def serialize : IndexParams → JsonObject
  | .ivfFlat centroidsCount metricType =>
    [("centroids_count", .unsigned centroidsCount), ("metric_type", .string metricType.toText)]
  | .hnsw metricType encodeType m efConstruction ef =>
    [("metric_type", .string metricType.toText), ("encode_type", .string encodeType.toText),
      ("M", .unsigned m), ("ef_construction", .unsigned efConstruction), ("ef", .unsigned ef)]
  | .bmp blockSize compressType =>
    [("block_size", .unsigned blockSize), ("compress_type", .integer compressType.number)]
  | .fullText analyzer _ => [("analyzer", .string analyzer)]
  | .secondary => []
  | .emvb num bits =>
    [("pq_subspace_num", .unsigned num.toUInt64), ("pq_subspace_bits", .unsigned bits.toUInt64)]

/-- The switch of `IndexBase::Deserialize`. -/
def deserialize (o : JsonObject) : IndexType → Except Exn IndexParams
  | .ivfFlat => do
    let centroidsCount ← o.getUnsigned "centroids_count"
    let metricType ← o.getString "metric_type"
    .ok (.ivfFlat centroidsCount (.ofText metricType))
  | .hnsw => do
    let m ← o.getUnsigned "M"
    let efConstruction ← o.getUnsigned "ef_construction"
    let ef ← o.getUnsigned "ef"
    let metricType ← o.getString "metric_type"
    let encodeType ← o.getString "encode_type"
    .ok (.hnsw (.ofText metricType) (.ofText encodeType) m efConstruction ef)
  | .fullText => do
    let analyzer ← o.getString "analyzer"
    .ok (.fullText analyzer optionFlagAll)
  | .secondary => .ok .secondary
  | .emvb => do
    let num ← o.getUnsigned "pq_subspace_num"
    let bits ← o.getUnsigned "pq_subspace_bits"
    .ok (.emvb num.toUInt32 bits.toUInt32)
  | .bmp => do
    let blockSize ← o.getUnsigned "block_size"
    let compressType ← o.getInteger "compress_type"
    let compressType ← BMPCompressType.ofNumber compressType
    .ok (.bmp blockSize compressType)
  | .invalid => .error (.unrecoverable "Error index method while deserializing")

/-- The parameters without option flags. -/
def forgetFlag : IndexParams → IndexParams
  | .fullText analyzer _ => .fullText analyzer optionFlagAll
  | params => params

end IndexParams

namespace IndexBase

/-- `IndexBase::Serialize` with what the subclass adds. -/
def serialize (i : IndexBase) : Except Exn JsonObject := do
  let indexType ← i.params.indexType.toText
  .ok ([("index_type", .string indexType), ("index_name", .string i.indexName),
    ("file_name", .string i.fileName), ("column_names", .strings i.columnNames)] ++
    i.params.serialize)

/-- `IndexBase::Deserialize`. -/
def deserialize (o : JsonObject) : Except Exn IndexBase := do
  let indexType ← o.getString "index_type"
  let indexName ← o.getString "index_name"
  let fileName ← o.getString "file_name"
  let columnNames ← o.getStrings "column_names"
  let params ← IndexParams.deserialize o (.ofText indexType)
  .ok ⟨indexName, fileName, columnNames, params⟩

/-- **What comes back of the JSON object of an index**: everything but the option flags. -/
theorem deserialize_serialize (i : IndexBase) :
    (i.serialize >>= deserialize) = .ok { i with params := i.params.forgetFlag } := by
  obtain ⟨indexName, fileName, columnNames, params⟩ := i
  cases params with
  | ivfFlat centroidsCount metricType =>
    show Except.ok (IndexBase.mk indexName fileName columnNames
      (.ivfFlat centroidsCount (.ofText metricType.toText))) = _
    rw [MetricType.ofText_toText]
    rfl
  | hnsw metricType encodeType m efConstruction ef =>
    show Except.ok (IndexBase.mk indexName fileName columnNames
      (.hnsw (.ofText metricType.toText) (.ofText encodeType.toText) m efConstruction ef)) = _
    rw [MetricType.ofText_toText, HnswEncodeType.ofText_toText]
    rfl
  | bmp blockSize compressType =>
    show (BMPCompressType.ofNumber compressType.number >>= fun compressType =>
      Except.ok (.bmp blockSize compressType)) >>= (fun params =>
        Except.ok (IndexBase.mk indexName fileName columnNames params)) = _
    rw [BMPCompressType.ofNumber_number]
    rfl
  | fullText analyzer flag => rfl
  | secondary => rfl
  | emvb num bits =>
    show Except.ok (IndexBase.mk indexName fileName columnNames
      (.emvb num.toUInt64.toUInt32 bits.toUInt64.toUInt32)) = _
    rw [UInt32.toUInt32_toUInt64, UInt32.toUInt32_toUInt64]
    rfl

/-! ## The bytes -/

theorem pos_of_readParams {t : IndexType} {s s' : Cursor} {params : IndexParams}
    (h : IndexParams.read t s = .ok (params, s')) : s'.pos = s.pos + params.size := by
  cases t with
  | ivfFlat | bmp | emvb =>
    obtain ⟨_, _, h₁, h⟩ := bind_apply_eq_ok.mp h
    obtain ⟨_, _, h₂, h⟩ := bind_apply_eq_ok.mp h
    cases h
    rw [pos_of_readPod h₂, pos_of_readPod h₁]
    rfl
  | hnsw =>
    obtain ⟨_, _, h₁, h⟩ := bind_apply_eq_ok.mp h
    obtain ⟨_, _, h₂, h⟩ := bind_apply_eq_ok.mp h
    obtain ⟨_, _, h₃, h⟩ := bind_apply_eq_ok.mp h
    obtain ⟨_, _, h₄, h⟩ := bind_apply_eq_ok.mp h
    obtain ⟨_, _, h₅, h⟩ := bind_apply_eq_ok.mp h
    cases h
    rw [pos_of_readPod h₅, pos_of_readPod h₄, pos_of_readPod h₃, pos_of_readPod h₂,
      pos_of_readPod h₁]
    rfl
  | fullText =>
    obtain ⟨analyzer, _, h₁, h⟩ := bind_apply_eq_ok.mp h
    obtain ⟨_, _, h₂, h⟩ := bind_apply_eq_ok.mp h
    cases h
    rw [pos_of_readPod h₂, pos_of_readString h₁, Nat.add_assoc]
    rfl
  | secondary =>
    cases h
    rfl
  | invalid => cases h

/-- A definition that was read has taken as many bytes as it takes to write it, and no more than
were allowed. -/
theorem byteCount_le_of_readAdv {maxBytes : ℤ} {s s' : Cursor} {i : IndexBase}
    (h : readAdv maxBytes s = .ok (i, s')) : (i.byteCount : ℤ) ≤ maxBytes := by
  obtain ⟨start, t, ⟨⟩, h⟩ := bind_apply_eq_ok.mp h
  split at h
  · cases h
  obtain ⟨_, _, h₁, h⟩ := bind_apply_eq_ok.mp h
  obtain ⟨_, _, h₂, h⟩ := bind_apply_eq_ok.mp h
  obtain ⟨_, _, h₃, h⟩ := bind_apply_eq_ok.mp h
  obtain ⟨_, _, h₄, h⟩ := bind_apply_eq_ok.mp h
  obtain ⟨_, _, h₅, h⟩ := bind_apply_eq_ok.mp h
  obtain ⟨ptr, u, ⟨⟩, h⟩ := bind_apply_eq_ok.mp h
  split at h
  · cases h
  next hle =>
    cases h
    have hwidth : Pod.width IndexType = 4 := rfl
    rw [pos_of_readParams h₅, pos_of_readVector pos_of_readString h₄, pos_of_readString h₃,
      pos_of_readString h₂, pos_of_readPod h₁, hwidth] at hle
    unfold byteCount
    unfold stringSize at hle ⊢
    push_cast at hle ⊢
    omega

/-- **The bytes of an index are read back exactly if their number fits a signed 32-bit integer.** -/
theorem readAdv_getSizeInBytes_iff (i : IndexBase) :
    (∀ p rest, (readAdv i.getSizeInBytes.toInt ⟨p, i.writeAdv ++ rest⟩).map Prod.fst = .ok i) ↔
      i.byteCount < sizeLimit := by
  constructor
  · intro h
    have hread := h 0 []
    cases hresult : readAdv i.getSizeInBytes.toInt ⟨0, i.writeAdv ++ []⟩ with
    | error e =>
      rw [hresult] at hread
      cases hread
    | ok r =>
      rw [hresult] at hread
      obtain rfl : r.1 = i := Except.ok.inj hread
      have hle := byteCount_le_of_readAdv hresult
      have hlt := r.1.getSizeInBytes.toInt_lt
      unfold sizeLimit
      omega
  · intro h p rest
    have hlength := i.length_writeAdv_eq
    have hsize : i.getSizeInBytes.toInt = i.byteCount := by
      rw [getSizeInBytes_eq, hlength]
      exact (toInt_ofNat_eq_iff (Nat.le_refl _)).mpr ⟨rfl, h⟩
    have hread := readAdv_writeAdv (p := p) (m := i.getSizeInBytes.toInt) (hlength ▸ h)
      (Int.le_of_eq (by rw [hsize, hlength])) rest
    rw [hread]
    rfl

/-! ## Both codecs -/

/-- **Both representations of an index definition give it back**: the JSON object of the full
checkpoint and the bytes of the log. -/
structure CodecsAgree (i : IndexBase) : Prop where
  json : (i.serialize >>= deserialize) = .ok i
  bytes : ∀ p rest, (readAdv i.getSizeInBytes.toInt ⟨p, i.writeAdv ++ rest⟩).map Prod.fst = .ok i

/-- **Both representations give an index definition back exactly if a full-text index has the
default option flags** and the bytes fit a signed 32-bit size. -/
theorem codecsAgree_iff (i : IndexBase) : i.CodecsAgree ↔
    (∀ analyzer flag, i.params = .fullText analyzer flag → flag = optionFlagAll) ∧
    i.byteCount < sizeLimit := by
  have hjson : (i.serialize >>= deserialize) = .ok i ↔
      ∀ analyzer flag, i.params = .fullText analyzer flag → flag = optionFlagAll := by
    rw [deserialize_serialize]
    obtain ⟨indexName, fileName, columnNames, params⟩ := i
    cases params with
    | fullText analyzer flag =>
      constructor
      · intro h analyzer' flag' heq
        cases heq
        have hparams := congrArg IndexBase.params (Except.ok.inj h)
        exact ((IndexParams.fullText.inj hparams).2).symm
      · intro h
        rw [h analyzer flag rfl]
        rfl
    | _ => exact iff_of_true rfl nofun
  rw [← hjson, ← readAdv_getSizeInBytes_iff]
  exact ⟨fun h => ⟨h.json, h.bytes⟩, fun h => ⟨h.1, h.2⟩⟩

/-- A full-text index without block maxima, `flag = 15`. -/
def noBlockMax : IndexBase :=
  ⟨text "idx", text "idx.fulltext", [text "body"], .fullText (text "standard") 15⟩

/-- Its log record has the flags, its full checkpoint has not. -/
theorem not_codecsAgree_noBlockMax :
    (∀ p rest, (readAdv noBlockMax.getSizeInBytes.toInt ⟨p, noBlockMax.writeAdv ++ rest⟩).map
      Prod.fst = .ok noBlockMax) ∧
    (noBlockMax.serialize >>= deserialize) =
      .ok { noBlockMax with params := .fullText (text "standard") optionFlagAll } ∧
    ¬ noBlockMax.CodecsAgree := by
  refine ⟨?_, rfl, fun h => ?_⟩
  · rw [readAdv_getSizeInBytes_iff]
    decide
  · have hparams := congrArg IndexBase.params (Except.ok.inj h.json)
    exact absurd (IndexParams.fullText.inj hparams).2 (by decide)

end IndexBase

end Infinity.Storage
