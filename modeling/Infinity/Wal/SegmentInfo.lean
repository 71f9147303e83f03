import Infinity.Parser.ConstantExpr

/-! # Row ids, blocks and segments in the log (`storage/wal/wal_entry.cpp`)

* `WalSegmentInfo.getSizeInBytes_eq`: the size is the number of bytes written, cut to 32 bits.
* `WalSegmentInfo.readBufferAdv_reads`: a segment of fewer than `2 ^ 31` bytes is read back.
-/

namespace Infinity.Wal

open Foundations Infinity.Parser

/-- `RowID`. -/
structure RowID where
  segmentId : UInt32
  segmentOffset : UInt32
  deriving DecidableEq, Repr

/-- The offset lies in the low half of the eight bytes. -/
instance : Pod RowID where
  width := 8
  code r := r.segmentOffset.toNat + 2 ^ 32 * r.segmentId.toNat
  ofCode n := some ⟨UInt32.ofNat (n / 2 ^ 32), UInt32.ofNat n⟩
  code_lt r := by
    have h := r.segmentOffset.toNat_lt
    have h' := r.segmentId.toNat_lt
    have h8 : 256 ^ 8 = 2 ^ 32 * 2 ^ 32 := by decide
    omega
  ofCode_code r := by
    obtain ⟨id, offset⟩ := r
    have h := offset.toNat_lt
    have hid : (offset.toNat + 2 ^ 32 * id.toNat) / 2 ^ 32 = id.toNat := by omega
    have hoff : UInt32.ofNat (offset.toNat + 2 ^ 32 * id.toNat) = offset := by
      apply UInt32.toNat_inj.mp
      rw [UInt32.toNat_ofNat']
      omega
    rw [hid, hoff, UInt32.ofNat_toNat]

/-! ## Segments and blocks in the log -/

/-- `WalBlockInfo`. -/
structure WalBlockInfo where
  blockId : UInt16
  rowCount : UInt16
  rowCapacity : UInt16
  /-- `outline_infos_`: for each outline buffer group, index and last offset. -/
  outlineInfos : List (List (UInt32 × UInt64))
  deriving DecidableEq, Repr

/-- `WalSegmentInfo`. -/
structure WalSegmentInfo where
  segmentId : UInt32
  columnCount : UInt64
  rowCount : UInt64
  actualRowCount : UInt64
  rowCapacity : UInt64
  blockInfos : List WalBlockInfo
  deriving DecidableEq, Repr

namespace WalBlockInfo

def writeOutline (o : UInt32 × UInt64) : Bytes := writePod o.1 ++ writePod o.2

def readOutline : Read (UInt32 × UInt64) := do
  let bufferCnt ← readPod UInt32
  let lastChunkOffset ← readPod UInt64
  pure (bufferCnt, lastChunkOffset)

/-- `WalBlockInfo::GetSizeInBytes`. -/
def getSizeInBytes (b : WalBlockInfo) : Int32 := Int32.ofNat (2 + 2 + 2) + Int32.ofNat 4
    + sumSizes (fun v => Int32.ofNat (4 + v.length * (4 + 8))) b.outlineInfos

/-- `WalBlockInfo::WriteBufferAdv`. -/
def writeBufferAdv (b : WalBlockInfo) : Bytes :=
  writePod b.blockId ++ (writePod b.rowCount ++ (writePod b.rowCapacity ++
    writeVector (writeVector writeOutline) b.outlineInfos))

/-- `WalBlockInfo::ReadBufferAdv`. -/
def readBufferAdv : Read WalBlockInfo := do
  let blockId ← readPod UInt16
  let rowCount ← readPod UInt16
  let rowCapacity ← readPod UInt16
  let outlineInfos ← readResized (readResized readOutline)
  pure ⟨blockId, rowCount, rowCapacity, outlineInfos⟩

theorem length_flatMap_writeOutline (v : List (UInt32 × UInt64)) :
    (v.flatMap writeOutline).length = v.length * 12 := by
  simp [List.length_flatMap, writeOutline, Pod.width]

theorem length_writeBufferAdv (b : WalBlockInfo) : b.writeBufferAdv.length =
    6 + (4 + (b.outlineInfos.flatMap (writeVector writeOutline)).length) := by
  simp only [writeBufferAdv, List.length_append, length_writePod, length_writeVector, Pod.width]
  omega

def byteCount (b : WalBlockInfo) : ℕ := 10 + (b.outlineInfos.map fun v => 4 + v.length * 12).sum

theorem length_writeBufferAdv_eq (b : WalBlockInfo) : b.writeBufferAdv.length = b.byteCount := by
  have hgroup : ∀ v : List (UInt32 × UInt64), (writeVector writeOutline v).length =
      4 + v.length * 12 := by
    intro v
    rw [length_writeVector, length_flatMap_writeOutline]
  rw [length_writeBufferAdv, length_flatMap_eq hgroup, byteCount]
  omega

theorem getSizeInBytes_eq (b : WalBlockInfo) :
    b.getSizeInBytes = Int32.ofNat b.writeBufferAdv.length := by
  have hgroups : sumSizes (fun v : List (UInt32 × UInt64) => Int32.ofNat (4 + v.length * (4 + 8)))
      b.outlineInfos = Int32.ofNat (b.outlineInfos.flatMap (writeVector writeOutline)).length :=
    sumSizes_eq (fun v => by rw [length_writeVector, length_flatMap_writeOutline]) _
  rw [getSizeInBytes, hgroups, length_writeBufferAdv]
  simp only [← Int32.ofNat_add]
  congr 1
  omega

theorem readOutlines_reads {p : ℕ} {v : List (UInt32 × UInt64)}
    (h : (writeVector writeOutline v).length < sizeLimit) :
    ReadsAt p (readResized readOutline) (writeVector writeOutline v) v := by
  rw [length_writeVector, length_flatMap_writeOutline] at h
  exact readResized_writeVector (by omega) fun o _ q _ _ =>
    (ReadsAt.readPod o.1).bind ((ReadsAt.readPod o.2).last (ReadsAt.pure _))

theorem readBufferAdv_reads {p : ℕ} {b : WalBlockInfo}
    (h : b.writeBufferAdv.length < sizeLimit) : ReadsAt p readBufferAdv b.writeBufferAdv b := by
  obtain ⟨hcount, hitem⟩ := vector_lt (fun v => by rw [length_writeVector]; omega)
    (lt_of_append (lt_of_append (lt_of_append h)))
  exact .pod <| .pod <| .pod <| .last (readResized_writeVector hcount fun v hv q _ _ =>
    readOutlines_reads (hitem v hv)) (.pure _)

end WalBlockInfo

namespace WalSegmentInfo

/-- `WalSegmentInfo::GetSizeInBytes`. -/
def getSizeInBytes (s : WalSegmentInfo) : Int32 := Int32.ofNat (4 + 8 + 8 + 8 + 8) + Int32.ofNat 4
    + sumSizes WalBlockInfo.getSizeInBytes s.blockInfos

/-- `WalSegmentInfo::WriteBufferAdv`. -/
def writeBufferAdv (s : WalSegmentInfo) : Bytes :=
  writePod s.segmentId ++ (writePod s.columnCount ++ (writePod s.rowCount ++
    (writePod s.actualRowCount ++
    (writePod s.rowCapacity ++ writeVector WalBlockInfo.writeBufferAdv s.blockInfos))))

/-- `WalSegmentInfo::ReadBufferAdv`. -/
def readBufferAdv : Read WalSegmentInfo := do
  let segmentId ← readPod UInt32
  let columnCount ← readPod UInt64
  let rowCount ← readPod UInt64
  let actualRowCount ← readPod UInt64
  let rowCapacity ← readPod UInt64
  let blockInfos ← readVector WalBlockInfo.readBufferAdv
  pure ⟨segmentId, columnCount, rowCount, actualRowCount, rowCapacity, blockInfos⟩

theorem length_writeBufferAdv (s : WalSegmentInfo) : s.writeBufferAdv.length =
    36 + (4 + (s.blockInfos.flatMap WalBlockInfo.writeBufferAdv).length) := by
  simp only [writeBufferAdv, List.length_append, length_writePod, length_writeVector, Pod.width]
  omega

def byteCount (s : WalSegmentInfo) : ℕ := 40 + (s.blockInfos.map WalBlockInfo.byteCount).sum

theorem length_writeBufferAdv_eq (s : WalSegmentInfo) : s.writeBufferAdv.length = s.byteCount := by
  rw [length_writeBufferAdv, length_flatMap_eq WalBlockInfo.length_writeBufferAdv_eq, byteCount]
  omega

theorem getSizeInBytes_eq (s : WalSegmentInfo) :
    s.getSizeInBytes = Int32.ofNat s.writeBufferAdv.length := by
  rw [getSizeInBytes, sumSizes_eq WalBlockInfo.getSizeInBytes_eq, length_writeBufferAdv]
  simp only [← Int32.ofNat_add]
  congr 1
  omega

theorem readBufferAdv_reads {p : ℕ} {s : WalSegmentInfo}
    (h : s.writeBufferAdv.length < sizeLimit) : ReadsAt p readBufferAdv s.writeBufferAdv s := by
  obtain ⟨hcount, hitem⟩ := vector_lt (fun b => by rw [WalBlockInfo.length_writeBufferAdv]; omega)
    (lt_of_append (lt_of_append (lt_of_append (lt_of_append (lt_of_append h)))))
  exact .pod <| .pod <| .pod <| .pod <| .pod <| .last (readVector_writeVector hcount
    fun b hb q _ _ => WalBlockInfo.readBufferAdv_reads (hitem b hb)) (ReadsAt.pure _)

end WalSegmentInfo

end Infinity.Wal
