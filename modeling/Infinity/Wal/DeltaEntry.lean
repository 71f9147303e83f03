import Infinity.Wal.DeltaOp
import Infinity.Wal.Frame

/-! # Catalog delta entries and their codec (`storage/wal/catalog_delta_entry.cpp`)

A delta file holds one entry: the greatest commit time stamp and the operations, framed as a log
entry is. The writer compares the counted and the written size of every operation; the reader
prints every operation it has read to the log of the server.

* `CatalogDeltaEntry.readBody_reads`, `CatalogDeltaEntry.readBody_fails`: what the reader makes of
  the body of an entry with serializable columns.
* `CatalogDeltaEntry.deltaRoundTrips_iff`: the codec carries an entry exactly when its columns are
  serializable, printable and without bloom filter flag, and it takes fewer than `2 ^ 31`
bytes. -/

namespace Infinity.Wal

open Foundations Infinity.Parser Storage List DeltaOp

/-- `CatalogDeltaEntry`, as far as it is written. -/
structure CatalogDeltaEntry where
  maxCommitTs : UInt64
  operations : List DeltaOp

namespace CatalogDeltaEntry

variable {ops : Bytes} {e : CatalogDeltaEntry} {p : ℕ} {op : DeltaOp}

/-- `CatalogDeltaEntryHeader::GetSizeInBytes`. -/
def headerSize : ℕ := 8

/-- What the frame of an entry holds, given its encoded operations. -/
def body (e : CatalogDeltaEntry) (ops : Bytes) : Bytes :=
  writePod e.maxCommitTs ++ (writePod (Int32.ofNat e.operations.length) ++ ops)

/-- `CatalogDeltaEntry::GetSizeInBytes`. -/
def getSizeInBytes (e : CatalogDeltaEntry) : Except Exn Int32 :=
  addSize (.ok (Int32.ofNat (headerSize + 8 + 4)))
    (addSize (sizeAll DeltaOp.getSizeInBytes e.operations) (.ok (Int32.ofNat 4)))

/-- The loop body of `CatalogDeltaEntry::WriteAdv`. -/
def writeOp (op : DeltaOp) : Except Exn Bytes := do
  let expSize ← op.getSizeInBytes
  let bs ← op.writeAdv
  let actSize := Int32.ofNat bs.length
  if expSize ≠ actSize then
    .error (.unrecoverable ("catalog delta operation write failed, exp_size: " ++
      toString expSize ++ ", act_size: " ++ toString actSize))
  else .ok bs

/-- `CatalogDeltaEntry::WriteAdv`. -/
def writeAdv (crc : Bytes → UInt32) (e : CatalogDeltaEntry) : Except Exn Bytes := do
  let ops ← writeAll writeOp e.operations
  writeFrame crc (e.body ops)

/-- Read the two members of the header. -/
def readHeader : Read (Int32 × UInt32) := do
  let size ← readPod Int32
  let checksum ← readPod UInt32
  pure (size, checksum)

/-- The loop body of `CatalogDeltaEntry::ReadAdv`. -/
def readOp (ptrEnd : ℤ) : Read DeltaOp := do
  let ptr ← tell
  if ptrEnd - ptr ≤ 0 then raise (.unrecoverable "ptr goes out of range when reading WalEntry")
  else readAdv (ptrEnd - ptr)

/-- The fields of `CatalogDeltaEntry::ReadAdv` behind the header. -/
def readFields (ptrEnd : ℤ) : Read CatalogDeltaEntry := do
  let maxCommitTs ← readPod UInt64
  let cnt ← readPod Int32
  let operations ← readMany cnt.toNatClampNeg (readOp ptrEnd)
  advance 4
  let ptr ← tell
  if ptrEnd - ptr < 0 then raise (.unrecoverable "ptr goes out of range when reading WalEntry")
  else pure ⟨maxCommitTs, operations⟩

/-- The last loop of `CatalogDeltaEntry::ReadAdv`, which prints every operation. -/
def logOperations (e : CatalogDeltaEntry) : Read CatalogDeltaEntry :=
  match e.operations.findSome? toStringError with
  | some err => raise err
  | none => pure e

/-- `CatalogDeltaEntry::ReadAdv` behind the header. -/
def readBody (ptrEnd : ℤ) : Read CatalogDeltaEntry := do
  let e ← readFields ptrEnd
  logOperations e

/-- `CatalogDeltaEntry::ReadAdv`. -/
def readAdv (crc : Bytes → UInt32) (buf : Bytes) (ptr : ℕ) (maxBytes : ℤ) :
    Except (Fault Exn) (ReadResult CatalogDeltaEntry) :=
  if maxBytes ≤ 0 then
    .error (.raised (.unrecoverable "ptr goes out of range when reading WalEntry"))
  else do
    let ((size, checksum), s) ← readHeader ⟨ptr, buf.drop ptr⟩
    match ← checkFrame crc buf ptr size checksum with
    | .sizeMismatch => .ok ⟨none, s.pos, buf⟩
    | .badChecksum checksum2 _ =>
      .error (.raised (.unrecoverable ("checksum failed, checksum: " ++ toString checksum ++
        ", checksum2: " ++ toString checksum2)))
    | .good buf' => do
      let (entry, s') ← readBody (ptr + maxBytes) ⟨s.pos, buf'.drop s.pos⟩
      .ok ⟨some entry, s'.pos, buf'⟩

def byteCount (e : CatalogDeltaEntry) : ℕ :=
  headerSize + 8 + 4 + (e.operations.map DeltaOp.byteCount).sum + 4

/-- The operations that the codec carries: column types are serializable, no column asks for a
bloom filter, no index that is dropped has a definition, and no printer raises. -/
def Encodable (e : CatalogDeltaEntry) : Prop :=
  ∀ op ∈ e.operations, op.attrs.Serializable ∧ op.FullyWritten ∧ op.toStringError = none

/-- The codec carries the entry: the writer succeeds, the size function counts the bytes that are
written, and wherever these stand in a buffer, the reader returns the entry from them and has
consumed exactly them. -/
def RoundTrips (crc : Bytes → UInt32) (e : CatalogDeltaEntry) : Prop :=
  ∃ bs, e.writeAdv crc = .ok bs ∧
    (∃ n, e.getSizeInBytes = .ok n ∧ n.toInt = bs.length) ∧
    ∀ pre post, ∃ buf, readAdv crc (pre ++ (bs ++ post)) pre.length bs.length =
      .ok ⟨some e, pre.length + bs.length, buf⟩

/-! ## The frame -/

@[simp] theorem length_body (e : CatalogDeltaEntry) (ops : Bytes) :
    (e.body ops).length = 12 + ops.length := by
  simp only [body, length_append, length_writePod, Pod.width]
  omega

theorem frameSize_body (e : CatalogDeltaEntry) (ops : Bytes) :
    frameSize (e.body ops) = headerSize + 8 + 4 + ops.length + 4 := by
  rw [frameSize, length_body, headerSize]
  omega

theorem readHeader_reads (size : Int32) (checksum : UInt32) :
    ReadsAt p readHeader (writePod size ++ (writePod checksum ++ [])) (size, checksum) :=
  ReadsAt.pod <| .pod <| .pure _

/-- On a frame whose size and checksum are right, the reader goes on to the body. -/
theorem readAdv_framed (crc : Bytes → UInt32) (e : CatalogDeltaEntry) (ops pre post : Bytes) {m : ℤ}
    (hlim : frameSize (e.body ops) < sizeLimit) (hm : 0 < m) : ∃ buf,
    readAdv crc (pre ++ (framed crc (e.body ops) ++ post)) pre.length m =
      (readBody (pre.length + m) ⟨pre.length + headerSize,
        (e.body ops ++ writePod (Int32.ofNat (frameSize (e.body ops)))) ++ post⟩).map fun r =>
          ⟨some r.1, r.2.pos, buf⟩ := by
  obtain ⟨buf, hheader, hcheck, hdrop⟩ := readHeader_framed crc pre post hlim rfl
    (readHeader_reads _ _) (nil_append _) (n := headerSize) rfl
  refine ⟨buf, ?_⟩
  rw [readAdv, if_neg (by omega), hheader]
  simp only [bind, Except.bind, hcheck, hdrop, Except.map, append_assoc]

/-! ## The operations -/

theorem writeAdv_of_writeOp {bs : Bytes} (h : writeOp op = .ok bs) : op.writeAdv = .ok bs := by
  simp only [writeOp, bind, Except.bind] at h
  split at h
  · cases h
  split at h
  · cases h
  next heq =>
    split at h
    · cases h
    · cases h
      exact heq

/-- The comparison of the two sizes never fails for serializable columns. -/
theorem writeOp_of_serializable (hser : op.attrs.Serializable) : ∃ bs, writeOp op = .ok bs := by
  obtain ⟨bs, hbs⟩ := writeAdv_of_serializable hser
  obtain ⟨n, -, hsize, hn⟩ := op.sized bs hbs
  rw [hn.mpr hser] at hsize
  exact ⟨bs, by simp [writeOp, hsize, hbs, bind, Except.bind]⟩

theorem sized_writeOp (op : DeltaOp) : Sized (writeOp op) op.getSizeInBytes op.attrs.Serializable :=
  fun bs h => op.sized bs (writeAdv_of_writeOp h)

theorem sized (crc : Bytes → UInt32) (e : CatalogDeltaEntry) :
    Sized (e.writeAdv crc) e.getSizeInBytes (∀ op ∈ e.operations, op.attrs.Serializable) :=
  sized_writeFrame (Sized.all sized_writeOp e.operations) e.frameSize_body

theorem frameSize_eq (hser : ∀ op ∈ e.operations, op.attrs.Serializable)
    (hw : writeAll writeOp e.operations = .ok ops) : frameSize (e.body ops) = e.byteCount := by
  have hlen : ops.length = (e.operations.map DeltaOp.byteCount).sum :=
      length_of_writeAll (fun op hop _ hb =>
      DeltaOp.length_of_writeAdv (hser op hop) (writeAdv_of_writeOp hb)) hw
  rw [frameSize_body, hlen, byteCount]

/-- The loop reads the operations back without their bloom filter flags. -/
theorem readOps_reads {ptrEnd : ℤ} {operations : List DeltaOp}
    (hser : ∀ op ∈ operations, op.attrs.Serializable) (hw : writeAll writeOp operations = .ok ops)
    (hlim : ops.length < sizeLimit) (hend : (p + ops.length : ℤ) ≤ ptrEnd) :
    ReadsAt p (readMany operations.length (readOp ptrEnd)) ops (operations.map forget) := by
  refine readsAt_writeAll_map hw fun op hop b q hb hq hq' => ?_
  have hb' := writeAdv_of_writeOp hb
  have hpos := writeAdv_pos hb'
  refine .tell_bind ?_
  rw [if_neg (by omega)]
  exact readAdv_writeAdv (hser op hop) hb' (by omega) (by omega)

/-- The entry without what the writer leaves out. -/
def forget (e : CatalogDeltaEntry) : CatalogDeltaEntry :=
  ⟨e.maxCommitTs, e.operations.map DeltaOp.forget⟩

theorem forget_eq_self_iff (e : CatalogDeltaEntry) :
    e.forget = e ↔ ∀ op ∈ e.operations, op.FullyWritten := by
  have h := map_inj_left (l := e.operations) (f := DeltaOp.forget) (g := id)
  simp only [id, DeltaOp.forget_eq_self_iff] at h
  rw [← h]
  cases e
  simp [forget]

theorem findSome_forget : e.forget.operations.findSome? toStringError =
      e.operations.findSome? toStringError := by
  rw [forget, findSome?_map]
  congr 1
  funext op
  exact op.toStringError_forget

theorem findSome_eq_none_iff : e.operations.findSome? toStringError = none ↔
      ∀ op ∈ e.operations, op.toStringError = none := by
  rw [findSome?_eq_none_iff]

section Body

variable {ptrEnd : ℤ} {last : Bytes}

section

variable (hser : ∀ op ∈ e.operations, op.attrs.Serializable)
  (hw : writeAll writeOp e.operations = .ok ops)
  (hlim : ops.length < sizeLimit) (hlast : last.length = 4)
    (hend : (p + (12 + ops.length + 4) : ℤ) ≤ ptrEnd)
include hser hw hlim hlast hend

theorem readFields_reads : ReadsAt p (readFields ptrEnd) (e.body ops ++ last) e.forget := by
  have hcount := length_le_of_writeAll (fun _ _ h => writeAdv_pos (writeAdv_of_writeOp h)) hw
  refine .pod <| .pod ?_
  rw [toNatClampNeg_ofNat (by omega)]
  simp only [length_writePod, Pod.width]
  refine (readOps_reads hser hw hlim (by push_cast; omega)).bind <| (advance_reads hlast).last <|
    .tell_bind ?_
  rw [if_neg (by rw [hlast]; push_cast; omega)]
  exact .pure _

theorem readBody_reads (hprint : ∀ op ∈ e.operations, op.toStringError = none) :
    ReadsAt p (readBody ptrEnd) (e.body ops ++ last) e.forget := by
  refine (readFields_reads hser hw hlim hlast hend).last ?_
  rw [logOperations, findSome_forget, e.findSome_eq_none_iff.mpr hprint]
  exact .pure _

/-- One operation that cannot be printed makes the reader raise. -/
theorem readBody_fails
    (hprint : ¬ ∀ op ∈ e.operations, op.toStringError = none) :
    FailsAt p (readBody ptrEnd) (e.body ops ++ last) := by
  obtain ⟨err, herr⟩ := Option.ne_none_iff_exists'.mp (mt e.findSome_eq_none_iff.mp hprint)
  rw [← append_nil (e.body ops ++ last)]
  refine .tail (readFields_reads hser hw hlim hlast hend) ?_
  rw [logOperations, findSome_forget, herr]
  exact .raise err

end

end Body

/-! ## The round trip -/

/-- The writer on an entry of fewer than `2 ^ 31` bytes. -/
theorem writeAdv_eq (crc : Bytes → UInt32) (e : CatalogDeltaEntry)
    (hw : writeAll writeOp e.operations = .ok ops)
    (hlim : frameSize (e.body ops) < sizeLimit) :
    e.writeAdv crc = .ok (framed crc (e.body ops)) := by
  simp only [writeAdv, hw, bind, Except.bind]
  exact writeFrame_eq crc hlim

/-- An encodable entry that is short enough makes the round trip. -/
theorem roundTrips_of_encodable (crc : Bytes → UInt32) (he : e.Encodable)
    (hlim : e.byteCount < sizeLimit) : e.RoundTrips crc := by
  have hser : ∀ op ∈ e.operations, op.attrs.Serializable := fun op hop => (he op hop).1
  obtain ⟨ops, hw⟩ : ∃ ops, writeAll writeOp e.operations = .ok ops :=
    writeAll_of_forall fun op hop => writeOp_of_serializable (hser op hop)
  rw [← frameSize_eq hser hw] at hlim
  have hsize := e.frameSize_body ops
  have hwrite := e.writeAdv_eq crc hw hlim
  refine ⟨_, hwrite, ((e.sized crc).toInt_eq_iff hwrite).mpr ⟨hser, by rwa [length_framed]⟩,
    fun pre post => ?_⟩
  have hbody : ReadsAt (pre.length + headerSize)
      (readBody (pre.length + (frameSize (e.body ops) : ℕ)))
      (e.body ops ++ writePod (Int32.ofNat (frameSize (e.body ops)))) e.forget :=
    readBody_reads hser hw (by omega) (length_writePod _)
      (by rw [hsize, headerSize]; push_cast; omega) fun op hop => (he op hop).2.2
  have hforget : e.forget = e := e.forget_eq_self_iff.mpr fun op hop => (he op hop).2.1
  rw [hforget] at hbody
  obtain ⟨buf, hread⟩ :=
    readAdv_framed crc e ops pre post hlim (m := frameSize (e.body ops)) (by omega)
  refine ⟨buf, ?_⟩
  rw [length_framed, hread, hbody post]
  simp only [Except.map, length_append, length_body, length_writePod, Pod.width, hsize, headerSize]
  congr 2
  omega

/-- An entry that makes the round trip is encodable and short enough. -/
theorem encodable_of_roundTrips {crc : Bytes → UInt32}
    (h : e.RoundTrips crc) : e.Encodable ∧ e.byteCount < sizeLimit := by
  obtain ⟨bs, hwrite, hsize, hread⟩ := h
  obtain ⟨hser, hlim⟩ := ((e.sized crc).toInt_eq_iff hwrite).mp hsize
  obtain ⟨ops, hw, hbs⟩ := exists_of_writeFrame hwrite
  rw [hbs] at hlim hread
  have hframe := e.frameSize_body ops
  refine ⟨?_, by rw [← frameSize_eq hser hw]; exact hlim⟩
  rw [e.writeAdv_eq crc hw hlim] at hwrite
  cases hwrite
  obtain ⟨buf, hread⟩ := hread [] []
  obtain ⟨buf', hread'⟩ :=
    readAdv_framed crc e ops [] [] hlim (m := frameSize (e.body ops)) (by omega)
  rw [hread'] at hread
  have hend : ((([] : Bytes).length + headerSize : ℕ) + (12 + ops.length + 4) : ℤ) ≤
      ([] : Bytes).length + (frameSize (e.body ops) : ℕ) := by
    omega
  -- a printer that raises contradicts the result, and without one the flags must agree
  have hprint : ∀ op ∈ e.operations, op.toStringError = none := by
    by_contra hbad
    obtain ⟨err, herr⟩ := readBody_fails hser hw (by omega)
      (length_writePod (Int32.ofNat (frameSize (e.body ops)))) hend hbad []
    rw [herr] at hread
    cases hread
  have hbody := readBody_reads hser hw (by omega)
    (length_writePod (Int32.ofNat (frameSize (e.body ops)))) hend hprint []
  rw [hbody] at hread
  have hforget : e.forget = e := by
    simp only [Except.map, Except.ok.injEq, ReadResult.mk.injEq, Option.some.injEq] at hread
    exact hread.1
  intro op hop
  exact ⟨hser op hop, e.forget_eq_self_iff.mp hforget op hop, hprint op hop⟩

/-- The creation of a table with one integer column that asks for a bloom filter. -/
def bloomTable : CatalogDeltaEntry where
  maxCommitTs := 5
  operations := [⟨⟨1, .new, 1, 5, [35]⟩,
    .addTableEntry [116] [⟨0, DataType.plain .integer, [99], ∅, .null, true⟩] 0 0 0, trivial⟩]

end CatalogDeltaEntry

end Infinity.Wal
