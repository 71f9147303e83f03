import Infinity.Parser.Serialize

/-! # Checksummed frames

Log entries and catalog delta entries are framed alike: the size, a checksum, the body and the
size once more, the checksum being taken over the whole frame with a zero in its own place. Both
readers look at the trailing size before they know how long the frame is, and both clear the
checksum field in the buffer. The checksum function is a parameter `crc`.
-/

namespace Infinity.Wal

open Foundations Infinity.Parser List

/-- The bytes of `len` from a signed address on; outside the buffer there are none. -/
def sliceAt (buf : Bytes) (start : ℤ) (len : ℕ) : Except (Fault Exn) Bytes :=
  if 0 ≤ start ∧ start + len ≤ buf.length then .ok ((buf.drop start.toNat).take len)
  else .error .outOfBuffer

theorem sliceAt_append (a b c : Bytes) : sliceAt (a ++ (b ++ c)) a.length b.length = .ok b := by
  rw [sliceAt, if_pos (by simp only [length_append]; omega)]
  simp

def frame (body : Bytes) (size : Int32) (checksum : UInt32) : Bytes :=
  writePod size ++ (writePod checksum ++ (body ++ writePod size))

def frameSize (body : Bytes) : ℕ := 4 + 4 + body.length + 4

@[simp] theorem length_frame (body : Bytes) (size : Int32) (checksum : UInt32) :
    (frame body size checksum).length = frameSize body := by
  simp only [frame, length_append, length_writePod, Pod.width, frameSize]
  omega

def framed (crc : Bytes → UInt32) (body : Bytes) : Bytes :=
  frame body (Int32.ofNat (frameSize body)) (crc (frame body (Int32.ofNat (frameSize body)) 0))

/-- Write a body in its frame. The size is a signed one, and a negative one sends the checksum
past the frame. -/
def writeFrame (crc : Bytes → UInt32) (body : Bytes) : Except Exn Bytes :=
  let size := Int32.ofNat (frameSize body)
  if toSizeT size ≤ frameSize body then
    .ok (frame body size (crc ((frame body size 0).take (toSizeT size))))
  else .error (.undefined "checksum past the frame")

/-- Clear the checksum field of the frame at `ptr`. -/
def zeroChecksum (buf : Bytes) (ptr : ℕ) : Bytes :=
  buf.take (ptr + 4) ++ (writePod (0 : UInt32) ++ buf.drop (ptr + 8))

/-- What a reader finds out about the frame at `ptr`, with the buffer it leaves. -/
inductive FrameCheck where
  | sizeMismatch
  | badChecksum (checksum2 : UInt32) (buf : Bytes)
  | good (buf : Bytes)

/-- Compare the trailing size and the checksum of the frame at `ptr` with its header. -/
def checkFrame (crc : Bytes → UInt32) (buf : Bytes) (ptr : ℕ) (size : Int32) (checksum : UInt32) :
    Except (Fault Exn) FrameCheck := do
  let last ← sliceAt buf (ptr + size.toInt - 4) 4
  if leValue last ≠ Pod.code size then .ok .sizeMismatch
  else
    let image ← sliceAt (zeroChecksum buf ptr) ptr (toSizeT size)
    if checksum ≠ crc image then .ok (.badChecksum (crc image) (zeroChecksum buf ptr))
    else .ok (.good (zeroChecksum buf ptr))

/-- What a reader of a frame leaves behind: the entry or a null pointer, the pointer and the
buffer. -/
structure ReadResult (α : Type) where
  entry : Option α
  ptr : ℕ
  buf : Bytes

def advance (n : ℕ) : Read Unit := fun s => .ok ((), ⟨s.pos + n, s.rest.drop n⟩)

theorem advance_reads {p : ℕ} {bs : Bytes} {n : ℕ} (h : bs.length = n) :
    ReadsAt p (advance n) bs () := by
  intro rest
  rw [advance, ← h, drop_left]

/-- The writer on a frame of fewer than `2 ^ 31` bytes. -/
theorem writeFrame_eq (crc : Bytes → UInt32) {body : Bytes} (hlim : frameSize body < sizeLimit) :
    writeFrame crc body = .ok (framed crc body) := by
  have hsizeT : toSizeT (Int32.ofNat (frameSize body)) = frameSize body := toSizeT_ofNat hlim
  have htake : (frame body (Int32.ofNat (frameSize body)) 0).take (frameSize body) =
      frame body (Int32.ofNat (frameSize body)) 0 :=
    take_of_length_le (by simp)
  rw [writeFrame, hsizeT, if_pos (Nat.le_refl _), htake, framed]

theorem length_of_writeFrame {crc : Bytes → UInt32} {body bs : Bytes}
    (hw : writeFrame crc body = .ok bs) : bs.length = frameSize body := by
  simp only [writeFrame] at hw
  split at hw
  · cases hw
    exact length_frame ..
  · cases hw

@[simp] theorem length_framed (crc : Bytes → UInt32) (body : Bytes) :
    (framed crc body).length = frameSize body :=
  length_frame ..

section Write

variable {crc : Bytes → UInt32} {out : Except Exn Bytes} {body : Bytes → Bytes} {bs : Bytes}

theorem exists_of_writeFrame (h : (out >>= fun x => writeFrame crc (body x)) = .ok bs) :
    ∃ x, out = .ok x ∧ bs.length = frameSize (body x) := by
  cases out with
  | ok x => exact ⟨x, rfl, length_of_writeFrame h⟩
  | error err => cases h

/-- The size of a frame counts the head of its body, what is written behind it and the trailing
size. -/
theorem sized_writeFrame {size : Except Exn Int32} {good : Prop} {k : ℕ} (h : Sized out size good)
    (hk : ∀ x, frameSize (body x) = k + x.length + 4) :
      Sized (out >>= fun x => writeFrame crc (body x))
      (addSize (.ok (Int32.ofNat k)) (addSize size (.ok (Int32.ofNat 4)))) good := by
  intro bs hbs
  obtain ⟨x, hx, hlen⟩ := exists_of_writeFrame hbs
  obtain ⟨n, hn, hsize, hgood⟩ := h x hx
  rw [hk] at hlen
  refine ⟨k + (n + 4), by omega, ?_, by rw [← hgood]; omega⟩
  rw [hsize, Int32.ofNat_add k, Int32.ofNat_add n]
  rfl

end Write

theorem zeroChecksum_frame (body pre post : Bytes) (size : Int32) (checksum : UInt32) :
    zeroChecksum (pre ++ (frame body size checksum ++ post)) pre.length =
    pre ++ (frame body size 0 ++ post) := by
  have h4 : (pre ++ writePod size).length = pre.length + 4 := by simp [Pod.width]
  have h8 : (pre ++ (writePod size ++ writePod checksum)).length = pre.length + 8 := by
    simp [Pod.width]
  have htake : ∀ rest, (pre ++ (writePod size ++ rest)).take (pre.length + 4) =
      pre ++ writePod size := by
    intro rest
    rw [← h4, ← append_assoc, take_left]
  have hdrop : ∀ rest, (pre ++ (writePod size ++ (writePod checksum ++ rest))).drop
      (pre.length + 8) = rest := by
    intro rest
    have hassoc : pre ++ (writePod size ++ (writePod checksum ++ rest)) =
        (pre ++ (writePod size ++ writePod checksum)) ++ rest := by
      simp only [append_assoc]
    rw [hassoc, ← h8, drop_left]
  simp only [zeroChecksum, frame, append_assoc, htake, hdrop]

section ZeroChecksum

variable {buf : Bytes} {ptr : ℕ}

section

variable (h : ptr + 8 ≤ buf.length)
include h

theorem length_zeroChecksum : (zeroChecksum buf ptr).length = buf.length := by
  simp only [zeroChecksum, length_append, length_take, length_drop, length_writePod, Pod.width]
  omega

/-- From the frame on, the cleared buffer depends on the bytes from the frame on. -/
theorem drop_zeroChecksum :
    (zeroChecksum buf ptr).drop ptr = zeroChecksum (buf.drop ptr) 0 := by
  rw [zeroChecksum, zeroChecksum, drop_append_of_le_length (by simp; omega), drop_take, drop_drop]
  congr 2
  omega

/-- Clearing the checksum leaves the bytes behind it alone. -/
theorem drop_zeroChecksum_of_le {n : ℕ} (hn : ptr + 8 ≤ n) :
    (zeroChecksum buf ptr).drop n = buf.drop n := by
  have hlen : (buf.take (ptr + 4) ++ writePod (0 : UInt32)).length = ptr + 8 := by
    simp only [length_append, length_take, length_writePod, Pod.width]
    omega
  obtain ⟨k, rfl⟩ := Nat.exists_eq_add_of_le hn
  rw [zeroChecksum, ← append_assoc, ← drop_drop, ← hlen, drop_left, hlen, drop_drop]

end

end ZeroChecksum

/-- The last four bytes of a frame repeat its size. -/
theorem sliceAt_last (body pre post : Bytes) (checksum : UInt32) {size : Int32}
    (hsize : size.toInt = frameSize body) :
    sliceAt (pre ++ (frame body size checksum ++ post)) (pre.length + size.toInt - 4) 4 =
    .ok (writePod size) := by
  have hbuf : pre ++ (frame body size checksum ++ post) =
      (pre ++ (writePod size ++ (writePod checksum ++ body))) ++ (writePod size ++ post) := by
    simp only [frame, append_assoc]
  have hstart : (pre.length + size.toInt - 4 : ℤ) =
      ((pre ++ (writePod size ++ (writePod checksum ++ body))).length : ℕ) := by
    rw [hsize]
    simp only [length_append, length_writePod, Pod.width, frameSize]
    omega
  have hlen : (writePod size).length = 4 := length_writePod size
  rw [hbuf, hstart, ← hlen, sliceAt_append]

/-- **A frame whose size and checksum are right passes the check.** -/
theorem checkFrame_frame (crc : Bytes → UInt32) (body pre post : Bytes) {size : Int32}
    (hlim : frameSize body < sizeLimit) (hsize : size = Int32.ofNat (frameSize body)) :
    checkFrame crc (pre ++ (frame body size (crc (frame body size 0)) ++ post)) pre.length size
      (crc (frame body size 0)) = .ok (.good (pre ++ (frame body size 0 ++ post))) := by
  have htoInt : size.toInt = frameSize body := by
    rw [hsize, Int32.toInt_ofNat_of_lt hlim]
  have hsizeT : toSizeT size = (frame body size 0).length := by
    rw [hsize, toSizeT_ofNat hlim, length_frame]
  have hlast := sliceAt_last body pre post (crc (frame body size 0)) htoInt
  have himage := sliceAt_append pre (frame body size 0) post
  have hcode : leValue (writePod size) = Pod.code size := leValue_leBytes_of_lt (Pod.code_lt size)
  simp only [checkFrame, bind, Except.bind, hlast, hcode, zeroChecksum_frame, hsizeT, himage,
    ne_eq, not_true_eq_false, if_false]

/-- A reader of the header, which may take the front of the body along, finds the frame right and
stands before the rest of the body. -/
theorem readHeader_framed {α : Type} {header : Read α} {a : α} {body front back : Bytes} {n : ℕ}
    (crc : Bytes → UInt32)
    (pre post : Bytes) (hlim : frameSize body < sizeLimit) {size : Int32}
    (hsize : size = Int32.ofNat (frameSize body))
    (hheader : ReadsAt pre.length header
    (writePod size ++ (writePod (crc (frame body size 0)) ++ front)) a)
    (hbody : front ++ back = body) (hlen : front.length + 8 = n) : ∃ buf,
    header ⟨pre.length, (pre ++ (framed crc body ++ post)).drop pre.length⟩ =
        .ok (a, ⟨pre.length + n, back ++ (writePod size ++ post)⟩) ∧
      checkFrame crc (pre ++ (framed crc body ++ post)) pre.length size (crc (frame body size 0)) =
      .ok (.good buf) ∧ buf.drop (pre.length + n) = back ++ (writePod size ++ post) := by
  have hhead : ∀ checksum : UInt32, (writePod size ++ (writePod checksum ++ front)).length = n := by
    intro checksum
    simp only [length_append, length_writePod, Pod.width]
    omega
  have hdrop : ∀ checksum, (pre ++ (frame body size checksum ++ post)).drop pre.length =
      (writePod size ++ (writePod checksum ++ front)) ++ (back ++ (writePod size ++ post)) := by
    intro checksum
    rw [drop_left, ← hbody]
    simp only [frame, append_assoc]
  refine ⟨pre ++ (frame body size 0 ++ post), ?_, ?_, ?_⟩
  · rw [framed, ← hsize, hdrop, hheader, hhead]
  · rw [framed, ← hsize]
    exact checkFrame_frame crc body pre post hlim hsize
  · rw [← drop_drop, hdrop, ← hhead 0]
    exact drop_left

end Infinity.Wal
