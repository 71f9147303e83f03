import Infinity.Wal.Cmd
import Infinity.Wal.Frame

/-! # Log entries and their codec (`storage/wal/wal_entry.cpp`)

An entry is a header of 24 bytes (size, checksum, transaction, commit time stamp), the number of
commands, the commands, and the size once more.

`WalEntry.readAdv` works on a whole buffer and a place in it.

* `WalEntry.readAdv_framed`: what the reader does on a framed entry, by what becomes of the body.
* `WalEntry.roundTrips_iff`: the codec carries an entry exactly when all its commands are
  encodable and it takes fewer than `2 ^ 31` bytes.
-/

namespace Infinity.Wal

open Foundations Infinity.Parser Storage List WalCmd

/-- `WalEntry`; the size and the checksum of its header are set by the writer. -/
structure WalEntry where
  txnId : Int64
  commitTs : UInt64
  cmds : List WalCmd

namespace WalEntry

variable {e : WalEntry} {p : ℕ} {cmds bs last : Bytes} {ptrEnd : ℤ} {cs : List WalCmd}

/-- `sizeof(WalEntryHeader)`. -/
def headerSize : ℕ := 24

def body (e : WalEntry) (cmds : Bytes) : Bytes :=
  writePod e.txnId ++ (writePod e.commitTs ++ (writePod (Int32.ofNat e.cmds.length) ++ cmds))

/-- `WalEntry::GetSizeInBytes`. -/
def getSizeInBytes (e : WalEntry) : Except Exn Int32 := addSize (.ok (Int32.ofNat (headerSize + 4)))
    (addSize (sizeAll WalCmd.getSizeInBytes e.cmds) (.ok (Int32.ofNat 4)))

/-- `WalEntry::WriteAdv`. -/
def writeAdv (crc : Bytes → UInt32) (e : WalEntry) : Except Exn Bytes := do
  let cmds ← writeAll WalCmd.writeAdv e.cmds
  writeFrame crc (e.body cmds)

def readHeader : Read (Int32 × UInt32 × Int64 × UInt64) := do
  let size ← readPod Int32
  let checksum ← readPod UInt32
  let txnId ← readPod Int64
  let commitTs ← readPod UInt64
  pure (size, checksum, txnId, commitTs)

/-- The loop of `WalEntry::ReadAdv` over the commands; it gives up when no byte is left. -/
def readCmds (ptrEnd : ℤ) : ℕ → Read (Option (List WalCmd))
  | 0 => pure (some [])
  | n + 1 => do
    let ptr ← tell
    if ptrEnd - ptr ≤ 0 then pure none
    else
      let cmd ← readAdv (ptrEnd - ptr)
      let cmds ← readCmds ptrEnd n
      pure (cmds.map (cmd :: ·))

/-- `WalEntry::ReadAdv` behind the header. -/
def readBody (ptrEnd : ℤ) : Read (Option (List WalCmd)) := do
  let cnt ← readPod Int32
  let cmds ← readCmds ptrEnd cnt.toNatClampNeg
  match cmds with
  | none => pure none
  | some cmds =>
    advance 4
    let ptr ← tell
    if ptrEnd - ptr < 0 then pure none else pure (some cmds)

/-- `WalEntry::ReadAdv`. -/
def readAdv (crc : Bytes → UInt32) (buf : Bytes) (ptr : ℕ) (maxBytes : ℤ) :
    Except (Fault Exn) (ReadResult WalEntry) :=
  if maxBytes ≤ 0 then .ok ⟨none, ptr, buf⟩
  else do
    let ((size, checksum, txnId, commitTs), s) ← readHeader ⟨ptr, buf.drop ptr⟩
    match ← checkFrame crc buf ptr size checksum with
    | .sizeMismatch => .ok ⟨none, ptr, buf⟩
    | .badChecksum _ buf' => .ok ⟨none, ptr, buf'⟩
    | .good buf' => do
      let (cmds, s') ← readBody (ptr + maxBytes) ⟨s.pos, buf'.drop s.pos⟩
      .ok ⟨cmds.map fun cmds => ⟨txnId, commitTs, cmds⟩, s'.pos, buf'⟩

def byteCount (e : WalEntry) : ℕ := headerSize + 4 + (e.cmds.map WalCmd.byteCount).sum + 4

def Encodable (e : WalEntry) : Prop := ∀ c ∈ e.cmds, c.Encodable

/-- The codec carries the entry: the size function counts the bytes that are written, and wherever
these stand in a buffer, the reader returns the entry from them and has consumed exactly them. -/
def RoundTrips (crc : Bytes → UInt32) (e : WalEntry) : Prop := ∃ bs, e.writeAdv crc = .ok bs ∧
    (∃ n, e.getSizeInBytes = .ok n ∧ n.toInt = bs.length) ∧
    ∀ pre post, ∃ buf, readAdv crc (pre ++ (bs ++ post)) pre.length bs.length =
      .ok ⟨some e, pre.length + bs.length, buf⟩

/-! ## The frame -/

@[simp] theorem length_body (e : WalEntry) (cmds : Bytes) :
    (e.body cmds).length = 20 + cmds.length := by
  simp only [body, length_append, length_writePod, Pod.width]
  omega

theorem frameSize_body (e : WalEntry) (cmds : Bytes) :
    frameSize (e.body cmds) = headerSize + 4 + cmds.length + 4 := by
  rw [frameSize, length_body, headerSize]
  omega

theorem readHeader_reads (size : Int32) (checksum : UInt32) (txnId : Int64) (commitTs : UInt64) :
    ReadsAt p readHeader (writePod size ++ (writePod checksum ++ (writePod txnId ++
      writePod commitTs))) (size, checksum, txnId, commitTs) :=
  ReadsAt.pod <| .pod <| .pod <| (ReadsAt.readPod _).last (ReadsAt.pure _)

/-- On a frame whose size and checksum are right, the reader goes on to the body. -/
theorem readAdv_framed (crc : Bytes → UInt32) (e : WalEntry) (cmds pre post : Bytes) {m : ℤ}
    (hlim : frameSize (e.body cmds) < sizeLimit) (hm : 0 < m) : ∃ buf,
    readAdv crc (pre ++ (framed crc (e.body cmds) ++ post)) pre.length m =
      (readBody (pre.length + m) ⟨pre.length + headerSize, writePod (Int32.ofNat e.cmds.length) ++
        (cmds ++ (writePod (Int32.ofNat (frameSize (e.body cmds))) ++ post))⟩).map fun r =>
          ⟨r.1.map fun cs => ⟨e.txnId, e.commitTs, cs⟩, r.2.pos, buf⟩ := by
  obtain ⟨buf, hheader, hcheck, hdrop⟩ := readHeader_framed crc pre post hlim rfl
    (readHeader_reads _ _ e.txnId e.commitTs) (append_assoc ..) (n :=
    headerSize) (by simp [Pod.width, headerSize])
  refine ⟨buf, ?_⟩
  rw [readAdv, if_neg (by omega), hheader]
  simp only [bind, Except.bind, hcheck, hdrop, Except.map, append_assoc]

/-! ## The body -/

/-- The loop reads the commands of an encodable entry back; the induction is on the commands. -/
theorem readCmds_reads {ptrEnd : ℤ} : ∀ {cs : List WalCmd} {bs : Bytes} {p : ℕ},
    writeAll WalCmd.writeAdv cs = .ok bs → (∀ c ∈ cs, c.Encodable) → bs.length < sizeLimit →
    (p + bs.length : ℤ) ≤ ptrEnd → ReadsAt p (readCmds ptrEnd cs.length) bs (some cs)
  | [], _, _, hw, _, _, _ => by
    cases hw
    exact ReadsAt.pure _
  | c :: cs, _, p, hw, hc, hlim, hend => by
    obtain ⟨b, b', hb, hb', rfl⟩ := writeThen_eq_ok.mp hw
    have hpos := writeAdv_pos hb
    rw [length_append] at hlim hend
    refine .tell_bind ?_
    rw [if_neg (by omega)]
    have htail : ReadsAt (p + b.length) (readCmds ptrEnd cs.length) b' (some cs) :=
      readCmds_reads hb' (fun x hx => hc x (by simp [hx])) (by omega) (by push_cast; omega)
    exact (readAdv_writeAdv (hc c (by simp)) hb (by omega) (by omega)).bind <| htail.last (.pure _)

/-- One command that is counted right but not encodable stops the loop. -/
theorem readCmds_fails {ptrEnd : ℤ} : ∀ {cs : List WalCmd} {bs : Bytes} {p : ℕ},
    writeAll WalCmd.writeAdv cs = .ok bs → (∀ c ∈ cs, c.Counted) → (∃ c ∈ cs, ¬ c.Encodable) →
    bs.length < sizeLimit → (p + bs.length : ℤ) ≤ ptrEnd → FailsAt p (readCmds ptrEnd cs.length) bs
  | [], _, _, _, _, hbad, _, _ => by simp at hbad
  | c :: cs, _, p, hw, hcount, hbad, hlim, hend => by
    obtain ⟨b, b', hb, hb', rfl⟩ := writeThen_eq_ok.mp hw
    have hpos := writeAdv_pos hb
    rw [length_append] at hlim hend
    refine .tell_bind ?_
    rw [if_neg (by omega)]
    by_cases hc : c.Encodable
    · obtain ⟨x, hx, hxbad⟩ := hbad
      have hmem : x ∈ cs := by
        rcases mem_cons.mp hx with rfl | hx
        · exact absurd hc hxbad
        · exact hx
      refine FailsAt.tail (readAdv_writeAdv hc hb (by omega) (by omega)) <| FailsAt.only ?_
      exact readCmds_fails hb' (fun y hy => hcount y (by simp [hy])) ⟨x, hmem, hxbad⟩ (by omega)
        (by push_cast; omega)
    · exact FailsAt.head (readAdv_fails (hcount c (by simp)) hc hb (by omega) (by omega))

theorem readBody_reads (hw : writeAll WalCmd.writeAdv cs = .ok bs) (hc : ∀ c ∈ cs, c.Encodable)
    (hlim : bs.length < sizeLimit) (hlast : last.length = 4)
    (hend : (p + (4 + bs.length + 4) : ℤ) ≤ ptrEnd) :
    ReadsAt p (readBody ptrEnd) (writePod (Int32.ofNat cs.length) ++ (bs ++ last)) (some cs) := by
  have hcount := length_le_of_writeAll (fun _ _ => writeAdv_pos) hw
  refine .pod ?_
  rw [toNatClampNeg_ofNat (by omega)]
  simp only [length_writePod, Pod.width]
  refine (readCmds_reads hw hc hlim (by push_cast; omega)).bind ?_
  refine (advance_reads hlast).last <| .tell_bind ?_
  rw [if_neg (by rw [hlast]; push_cast; omega)]
  exact .pure _

theorem readBody_fails (hw : writeAll WalCmd.writeAdv cs = .ok bs) (hcounted : ∀ c ∈ cs, c.Counted)
    (hbad : ∃ c ∈ cs, ¬ c.Encodable) (hlim : bs.length < sizeLimit)
    (hend : (p + (4 + bs.length) : ℤ) ≤ ptrEnd) :
    FailsAt p (readBody ptrEnd) (writePod (Int32.ofNat cs.length) ++ (bs ++ last)) := by
  have hcount := length_le_of_writeAll (fun _ _ => writeAdv_pos) hw
  refine .tail (.readPod _) ?_
  rw [toNatClampNeg_ofNat (by omega)]
  simp only [length_writePod, Pod.width]
  exact .head (readCmds_fails hw hcounted hbad hlim (by push_cast; omega))

/-! ## The round trip -/

theorem sized (crc : Bytes → UInt32) (e : WalEntry) :
    Sized (e.writeAdv crc) e.getSizeInBytes (∀ c ∈ e.cmds, c.Counted) :=
  sized_writeFrame (Sized.all WalCmd.sized e.cmds) e.frameSize_body

/-- The writer on an entry of fewer than `2 ^ 31` bytes. -/
theorem writeAdv_eq (crc : Bytes → UInt32) (e : WalEntry)
    (hw : writeAll WalCmd.writeAdv e.cmds = .ok cmds)
    (hlim : frameSize (e.body cmds) < sizeLimit) :
    e.writeAdv crc = .ok (framed crc (e.body cmds)) := by
  simp only [writeAdv, hw, bind, Except.bind]
  exact writeFrame_eq crc hlim

theorem frameSize_eq (hc : ∀ c ∈ e.cmds, c.Counted)
    (hw : writeAll WalCmd.writeAdv e.cmds = .ok cmds) : frameSize (e.body cmds) = e.byteCount := by
  have hlen : cmds.length = (e.cmds.map WalCmd.byteCount).sum :=
    length_of_writeAll (fun c hmem _ hb => WalCmd.length_of_writeAdv (hc c hmem) hb) hw
  rw [frameSize_body, hlen, byteCount]

/-- An encodable entry that is short enough makes the round trip. -/
theorem roundTrips_of_encodable (crc : Bytes → UInt32) (hc : e.Encodable)
    (hlim : e.byteCount < sizeLimit) : e.RoundTrips crc := by
  have hcounted : ∀ c ∈ e.cmds, c.Counted := fun c hmem => (hc c hmem).counted
  obtain ⟨cmds, hw⟩ : ∃ cmds, writeAll WalCmd.writeAdv e.cmds = .ok cmds :=
    writeAll_of_forall fun c hmem => writeAdv_of_encodable (hc c hmem)
  rw [← frameSize_eq hcounted hw] at hlim
  have hsize := e.frameSize_body cmds
  have hwrite := e.writeAdv_eq crc hw hlim
  refine ⟨_, hwrite, ((e.sized crc).toInt_eq_iff hwrite).mpr ⟨hcounted, by rwa [length_framed]⟩,
    fun pre post => ?_⟩
  have hbody : ReadsAt (pre.length + headerSize)
      (readBody (pre.length + (frameSize (e.body cmds) : ℕ)))
      (writePod (Int32.ofNat e.cmds.length) ++ (cmds ++
        writePod (Int32.ofNat (frameSize (e.body cmds))))) (some e.cmds) :=
    readBody_reads hw hc (by omega) (length_writePod _) (by rw [hsize]; push_cast; omega)
  have hrun := hbody post
  simp only [append_assoc, length_append, length_writePod, Pod.width] at hrun
  obtain ⟨buf, hread⟩ :=
    readAdv_framed crc e cmds pre post hlim (m := frameSize (e.body cmds)) (by omega)
  refine ⟨buf, ?_⟩
  rw [length_framed, hread, hrun]
  simp only [Except.map, Option.map_some, hsize]
  congr 2
  omega

/-- An entry that makes the round trip is encodable and short enough. -/
theorem encodable_of_roundTrips {crc : Bytes → UInt32} (h : e.RoundTrips crc) :
    e.Encodable ∧ e.byteCount < sizeLimit := by
  obtain ⟨bs, hwrite, hsize, hread⟩ := h
  obtain ⟨hcount, hlim⟩ := ((e.sized crc).toInt_eq_iff hwrite).mp hsize
  obtain ⟨cmds, hw, hbs⟩ := exists_of_writeFrame hwrite
  rw [hbs] at hlim hread
  have hframe := e.frameSize_body cmds
  refine ⟨?_, by rw [← frameSize_eq hcount hw]; exact hlim⟩
  by_contra hbad
  have hbad' : ∃ c ∈ e.cmds, ¬ c.Encodable := by simpa [Encodable] using hbad
  rw [e.writeAdv_eq crc hw hlim] at hwrite
  cases hwrite
  have hfails : FailsAt (([] : Bytes).length + headerSize)
      (readBody (([] : Bytes).length + (frameSize (e.body cmds) : ℕ)))
      (writePod (Int32.ofNat e.cmds.length) ++
      (cmds ++ writePod (Int32.ofNat (frameSize (e.body cmds))))) :=
    readBody_fails hw hcount hbad' (by omega) (by rw [hframe]; push_cast; omega)
  obtain ⟨err, herr⟩ := hfails []
  obtain ⟨buf, hread⟩ := hread [] []
  obtain ⟨buf', hread'⟩ :=
    readAdv_framed crc e cmds [] [] hlim (m := frameSize (e.body cmds)) (by omega)
  simp only [append_assoc] at herr
  rw [hread', herr] at hread
  cases hread

/-- **The codec carries an entry exactly when every command is encodable and the entry takes
fewer than `2 ^ 31` bytes.** -/
theorem roundTrips_iff (crc : Bytes → UInt32) (e : WalEntry) :
    e.RoundTrips crc ↔ e.Encodable ∧ e.byteCount < sizeLimit :=
  ⟨encodable_of_roundTrips, fun h => roundTrips_of_encodable crc h.1 h.2⟩

/-- A column of two sparse vectors of 8000 floats each, dimension 30000: the second one does not
fit the first chunk of 65536 bytes, so the heap ends 48000 bytes into its second chunk. -/
def wideColumn : ColumnVector where
  val :=
    { dataType := DataType.ofSparse ⟨.float, 30000, .sort, by decide, by decide, by decide⟩
      vectorType := .flat
      tailIndex := 2
      data := List.replicate 32 0
      heap := List.replicate (65536 + 48000) 0
      heap1 := []
      nulls := ⟨8192, List.replicate 128 unitMax, by decide, by decide, List.length_replicate⟩ }
  property :=
    { type_ne := ⟨nofun, nofun, nofun⟩
      vector_type := .inl rfl
      tail_le := by simp [ColumnVectorType.bufferRows, vectorSize]
      data_length := ⟨16, by simp [DataType.ofSparse, DataType.size, Except.toOption],
        by simp [ColumnVectorType.fixedLength]⟩
      heap_allowed := nofun
      heap1_allowed := fun _ => rfl }

def wideAppend : WalEntry where
  txnId := 1
  commitTs := 2
  cmds := [.append [100, 98] [116] ⟨[wideColumn], by simp, by simp [SameRows]⟩]

/-- The append of the two sparse vectors is logged and cannot be read back. -/
theorem not_roundTrips_wideAppend : ¬ ∃ crc, wideAppend.RoundTrips crc := by
  rintro ⟨crc, h⟩
  have hcmd : WalCmd.Encodable
      (.append [100, 98] [116] ⟨[wideColumn], by simp, by simp [SameRows]⟩) :=
    (encodable_of_roundTrips h).1 _ (by simp [wideAppend])
  have hcol : wideColumn.Encodable := hcmd wideColumn (by simp)
  have hfits := hcol.2.2.1 ⟨fixlenChunkSize, false⟩ rfl
  rcases hfits with hcross | hle
  · cases hcross
  · have hlen : wideColumn.val.heap.length = 65536 + 48000 := length_replicate
    rw [hlen] at hle
    exact absurd hle (by decide)

end WalEntry

end Infinity.Wal
