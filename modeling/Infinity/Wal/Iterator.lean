import Infinity.Wal.Entry

/-! # Scanning a log file (`WalEntryIterator`, `storage/wal/wal_entry.cpp`)

The forward iterator reads a length field, compares it with the file, and hands the place to
`WalEntry.readAdv`. Recovery runs it until it returns a null pointer or the file is used up.

What the scan is for is said without the reader: `entryAt` recognises a well-formed entry (equal
length fields, inside the file, checksum right) at the head of some bytes, and `wellFormedLength`
is how far well-formed entries follow one another.

* `nextForward_of_some`, `nextForward_of_none`: what one step does, by the bytes from the offset on.
* `scansTo_start`: the scan is safe and stops where the well-formed entries stop if each of them
  was logged for an encodable entry and the bytes behind them are none, or four at least with a
  length field that does not send the reader out of the buffer; on a file in which nothing but what
  the log writes is well formed, only then.
* `scanForward_written`: the entries of a log that was written are the ones that are scanned.
-/

namespace Infinity.Wal

open Foundations Infinity.Parser List WalEntry

variable {crc : Bytes → UInt32} {n off k len : ℕ} {rest buf bs : Bytes} {size : Int32} {start : ℤ}
  {e : WalEntry} {err : Fault Exn} {it : WalEntryIterator} {p : ℕ}

def i32At (bs : Bytes) : Int32 := (UInt32.ofNat (leValue (bs.take 4))).toInt32

def u32At (bs : Bytes) : UInt32 := UInt32.ofNat (leValue (bs.take 4))

def i64At (bs : Bytes) : Int64 := (UInt64.ofNat (leValue (bs.take 8))).toInt64

def u64At (bs : Bytes) : UInt64 := UInt64.ofNat (leValue (bs.take 8))

/-- `WalEntryIterator`: the buffer with the bytes of a file, and `off_`. -/
structure WalEntryIterator where
  buf : Bytes
  off : ℕ
  deriving DecidableEq, Repr

namespace WalEntryIterator

/-- `WalEntryIterator::Next` of a forward iterator. The comparison is one of unsigned words, in
which a negative length wraps. -/
def nextForward (crc : Bytes → UInt32) (it : WalEntryIterator) :
    Except (Fault Exn) (Option WalEntry × WalEntryIterator) := do
  let (entrySize, _) ← readPod (ε := Exn) Int32 ⟨it.off, it.buf.drop it.off⟩
  if it.buf.length < (it.off + toSizeT entrySize) % 2 ^ 64 then .ok (none, it)
  else
    let r ← readAdv crc it.buf it.off entrySize.toInt
    match r.entry with
    | none => .ok (none, ⟨r.buf, it.off⟩)
    | some e => .ok (some e, ⟨r.buf, it.off + toSizeT entrySize⟩)

end WalEntryIterator

open WalEntryIterator

/-! ## Words in a buffer -/

theorem readPod_int32 : readPod (ε := Exn) Int32 ⟨p, bs⟩ =
    if 4 ≤ bs.length then .ok (i32At bs, ⟨p + 4, bs.drop 4⟩) else .error .outOfBuffer :=
  readPod_apply (f := fun n => (UInt32.ofNat n).toInt32) (fun _ => rfl) p bs

theorem readPod_uint32 : readPod (ε := Exn) UInt32 ⟨p, bs⟩ =
    if 4 ≤ bs.length then .ok (u32At bs, ⟨p + 4, bs.drop 4⟩) else .error .outOfBuffer :=
  readPod_apply (f := UInt32.ofNat) (fun _ => rfl) p bs

theorem readPod_int64 : readPod (ε := Exn) Int64 ⟨p, bs⟩ =
    if 8 ≤ bs.length then .ok (i64At bs, ⟨p + 8, bs.drop 8⟩) else .error .outOfBuffer :=
  readPod_apply (f := fun n => (UInt64.ofNat n).toInt64) (fun _ => rfl) p bs

theorem readPod_uint64 : readPod (ε := Exn) UInt64 ⟨p, bs⟩ =
    if 8 ≤ bs.length then .ok (u64At bs, ⟨p + 8, bs.drop 8⟩) else .error .outOfBuffer :=
  readPod_apply (f := UInt64.ofNat) (fun _ => rfl) p bs

/-- The header is read where 24 bytes are left. -/
theorem readHeader_of_le (h : off + 24 ≤ buf.length) :
    readHeader ⟨off, buf.drop off⟩ = .ok ((i32At (buf.drop off), u32At (buf.drop (off + 4)),
      i64At (buf.drop (off + 8)), u64At (buf.drop (off + 16))),
      ⟨off + 24, buf.drop (off + 24)⟩) := by
  rw [readHeader, bind_apply_ok (by rw [readPod_int32, if_pos (by simp; omega)])]
  rw [bind_apply_ok (by rw [readPod_uint32, if_pos (by simp; omega)])]
  rw [bind_apply_ok (by rw [readPod_int64, if_pos (by simp; omega)])]
  rw [bind_apply_ok (by rw [readPod_uint64, if_pos (by simp; omega)])]
  simp only [drop_drop]
  rfl

theorem readHeader_of_lt (p : ℕ) (h : bs.length < 24) :
    readHeader ⟨p, bs⟩ = .error .outOfBuffer := by
  by_cases h4 : 4 ≤ bs.length
  · rw [readHeader, bind_apply_ok (by rw [readPod_int32, if_pos h4])]
    by_cases h8 : 8 ≤ bs.length
    · rw [bind_apply_ok (by rw [readPod_uint32, if_pos (by simp; omega)])]
      by_cases h16 : 16 ≤ bs.length
      · rw [bind_apply_ok (by rw [readPod_int64, if_pos (by simp; omega)])]
        exact bind_apply_error (by rw [readPod_uint64, if_neg (by simp; omega)])
      · exact bind_apply_error (by rw [readPod_int64, if_neg (by simp; omega)])
    · exact bind_apply_error (by rw [readPod_uint32, if_neg (by simp; omega)])
  · exact bind_apply_error (by rw [readPod_int32, if_neg h4])

/-- A word below 256 is its first byte followed by zeros. -/
theorem leValue_four {a b c d : UInt8} (hn : n < 256) (h : leValue [a, b, c, d] = n) :
    a.toNat = n ∧ b.toNat = 0 ∧ c.toNat = 0 ∧ d.toNat = 0 := by
  simp only [leValue] at h
  omega

theorem leValue_lt : ∀ bs : Bytes, leValue bs < 256 ^ bs.length
  | [] => by simp [leValue]
  | b :: bs => by
    have hb := b.toNat_lt
    have hbs := leValue_lt bs
    rw [leValue, length_cons, Nat.pow_succ]
    omega

/-- The word at the head of some bytes is the one whose code they spell. -/
theorem i32At_eq_iff : i32At bs = size ↔ leValue (bs.take 4) = Pod.code size := by
  have hlt : leValue (bs.take 4) < 2 ^ 32 := by
    refine (leValue_lt _).trans_le ?_
    calc 256 ^ (bs.take 4).length ≤ 256 ^ 4 := Nat.pow_le_pow_right (by decide) (by simp)
      _ = 2 ^ 32 := by decide
  constructor
  · rintro rfl
    change _ = (UInt32.ofNat (leValue (bs.take 4))).toInt32.toUInt32.toNat
    rw [UInt32.toUInt32_toInt32, UInt32.toNat_ofNat', Nat.mod_eq_of_lt hlt]
  · intro h
    have hcode := Pod.ofCode_code size
    rw [← h] at hcode
    exact Option.some.inj hcode

/-! ## What a well-formed entry is -/

/-- The length of the well-formed entry at the head of some bytes, if there is one: its two length
fields agree and lie inside the bytes, and its checksum is right. -/
def entryAt (crc : Bytes → UInt32) (rest : Bytes) : Option ℕ :=
  let size := i32At rest
  if 8 ≤ rest.length ∧ 4 ≤ size.toInt ∧ size.toInt ≤ rest.length ∧
      i32At (rest.drop (size.toInt.toNat - 4)) = size ∧
      u32At (rest.drop 4) = crc ((zeroChecksum rest 0).take size.toInt.toNat) then
    some size.toInt.toNat
  else none

theorem entryAt_eq_some (h : entryAt crc rest = some n) :
    8 ≤ rest.length ∧ 4 ≤ n ∧ n ≤ rest.length ∧ (i32At rest).toInt = n ∧
      i32At (rest.drop (n - 4)) = i32At rest ∧
      u32At (rest.drop 4) = crc ((zeroChecksum rest 0).take n) := by
  simp only [entryAt] at h
  split at h
  next hc =>
    obtain ⟨h8, h4, hle, hsuffix, hcrc⟩ := hc
    cases h
    exact ⟨h8, by omega, by omega, by omega, hsuffix, hcrc⟩
  · cases h

/-- How far well-formed entries follow one another. -/
def wellFormedLength (crc : Bytes → UInt32) (rest : Bytes) : ℕ :=
  match _hn : entryAt crc rest with
  | none => 0
  | some n => n + wellFormedLength crc (rest.drop n)
termination_by rest.length
decreasing_by
  have := entryAt_eq_some _hn
  rw [List.length_drop]
  omega

theorem wellFormedLength_of_none (h : entryAt crc rest = none) : wellFormedLength crc rest = 0 := by
  rw [wellFormedLength]
  split <;> simp_all

theorem wellFormedLength_of_some (h : entryAt crc rest = some n) :
    wellFormedLength crc rest = n + wellFormedLength crc (rest.drop n) := by
  rw [wellFormedLength]
  split <;> simp_all

/-- Behind the well-formed entries: no byte is left, or at least a length field, and one that
either ends the scan at once or leaves the header and the trailing length in the buffer. -/
def TailSafe (off : ℕ) (rest : Bytes) : Prop :=
  rest = [] ∨ 4 ≤ rest.length ∧ ((i32At rest).toInt ≤ 0 ∨ rest.length < (i32At rest).toInt ∨
    24 ≤ rest.length ∧ 4 ≤ off + (i32At rest).toInt)

/-- The bytes are what `WalManager::Flush` puts into the log for the entry: it refuses an entry of
which `WriteAdv` has written another number of bytes than it counts. -/
def Logged (crc : Bytes → UInt32) (bs : Bytes) (e : WalEntry) : Prop :=
  e.writeAdv crc = .ok bs ∧ ∃ n, e.getSizeInBytes = .ok n ∧ n.toInt = bs.length

/-- Each well-formed entry that is met was logged for an entry that has a property. -/
def AllLogged (crc : Bytes → UInt32) (Good : WalEntry → Prop) (rest : Bytes) : Prop :=
  match _hn : entryAt crc rest with
  | none => True
  | some n => (∃ e, Logged crc (rest.take n) e ∧ Good e) ∧ AllLogged crc Good (rest.drop n)
termination_by rest.length
decreasing_by
  have := entryAt_eq_some _hn
  rw [List.length_drop]
  omega

theorem allLogged_of_none {Good : WalEntry → Prop} (h : entryAt crc rest = none) :
    AllLogged crc Good rest := by
  rw [AllLogged]
  split <;> simp_all

theorem allLogged_of_some {Good : WalEntry → Prop} (h : entryAt crc rest = some n) :
    AllLogged crc Good rest ↔
      (∃ e, Logged crc (rest.take n) e ∧ Good e) ∧ AllLogged crc Good (rest.drop n) := by
  rw [AllLogged]
  split <;> simp_all

/-- The command readers get through the entry of length `n` at `off`, inside the entry. -/
def Parsable (off n : ℕ) (rest : Bytes) : Prop :=
  24 ≤ rest.length ∧ ∃ cmds s, readBody (off + n) ⟨off + 24, rest.drop 24⟩ = .ok (some cmds, s)

/-! ## One step of the scan -/

theorem sliceAt_of_le (hstart : start = k) (h : k + len ≤ buf.length) :
    sliceAt buf start len = .ok ((buf.drop k).take len) := by
  subst hstart
  rw [sliceAt, if_pos (by omega)]
  rfl

theorem sliceAt_of_neg (h : start < 0) : sliceAt buf start len = .error .outOfBuffer := by
  rw [sliceAt, if_neg (by omega)]

theorem code_of_nonneg (h : 0 ≤ size.toInt) : Pod.code size = size.toInt.toNat := by
  change size.toBitVec.toNat = size.toBitVec.toInt.toNat
  have h' : 0 ≤ size.toBitVec.toInt := h
  rw [BitVec.toInt_eq_toNat_cond] at h' ⊢
  split at h' <;> split <;> omega

theorem toSizeT_of_nonneg (h : 0 ≤ size.toInt) : toSizeT size = size.toInt.toNat := by
  have hlt := size.toInt_lt
  rw [toSizeT, Int.emod_eq_of_lt h (by omega)]

/-- The four bytes of a word inside a buffer. -/
theorem exists_word {j : ℕ} (h : j + 4 ≤ buf.length) :
    ∃ a b c d, (buf.drop j).take 4 = [a, b, c, d] ∧ buf[j]? = some a ∧ buf[j + 1]? = some b ∧
      buf[j + 2]? = some c ∧ buf[j + 3]? = some d := by
  have hlen : 4 ≤ (buf.drop j).length := by
    rw [length_drop]
    omega
  have hget : ∀ i, buf[j + i]? = (buf.drop j)[i]? := fun i => getElem?_drop.symm
  rw [hget 1, hget 2, hget 3, ← Nat.add_zero j, hget 0, Nat.add_zero]
  match hdrop : buf.drop j, hlen with
  | a :: b :: c :: d :: _, _ => exact ⟨a, b, c, d, rfl, rfl, rfl, rfl, rfl⟩

/-- A length field below four never agrees with the word that ends there: the first byte of the
field is not zero, but it stands where that word has a zero. -/
theorem small_size_mismatch (hsize : i32At (buf.drop off) = size) (hlen : off + 4 ≤ buf.length)
    (hpos : 0 < size.toInt) (hsmall : size.toInt < 4) (hk : (k : ℤ) = off + size.toInt - 4) :
    leValue ((buf.drop k).take 4) ≠ Pod.code size := by
  intro hcode
  have hfield := i32At_eq_iff.mp hsize
  rw [code_of_nonneg (by omega)] at hcode hfield
  obtain ⟨a, b, c, d, habcd, h0, h1, h2, h3⟩ := exists_word (by omega : k + 4 ≤ buf.length)
  obtain ⟨a', b', c', d', habcd', h0', -, -, -⟩ := exists_word hlen
  rw [habcd] at hcode
  rw [habcd'] at hfield
  obtain ⟨-, hb, hc, hd⟩ := leValue_four (by omega) hcode
  obtain ⟨ha', -, -, -⟩ := leValue_four (by omega) hfield
  have hcases : off = k + 1 ∨ off = k + 2 ∨ off = k + 3 := by omega
  rcases hcases with rfl | rfl | rfl
  · cases h1.symm.trans h0'
    omega
  · cases h2.symm.trans h0'
    omega
  · cases h3.symm.trans h0'
    omega

/-- The frame check where the length keeps it inside the buffer. -/
theorem checkFrame_apply (checksum : UInt32) (hn : (i32At (buf.drop off)).toInt = n)
    (h4 : 4 ≤ off + n) (h8 : off + 8 ≤ buf.length) (hle : off + n ≤ buf.length) :
    checkFrame crc buf off (i32At (buf.drop off)) checksum =
      if leValue ((buf.drop (off + n - 4)).take 4) ≠ Pod.code (i32At (buf.drop off)) then .ok
      .sizeMismatch else if checksum ≠ crc ((zeroChecksum (buf.drop off) 0).take n) then
        .ok (.badChecksum (crc ((zeroChecksum (buf.drop off) 0).take n)) (zeroChecksum buf off))
      else .ok (.good (zeroChecksum buf off)) := by
  have hlast : sliceAt buf (off + (i32At (buf.drop off)).toInt - 4) 4 =
      .ok ((buf.drop (off + n - 4)).take 4) := sliceAt_of_le (by omega) (by omega)
  have himage : sliceAt (zeroChecksum buf off) off (toSizeT (i32At (buf.drop off))) =
      .ok ((zeroChecksum (buf.drop off) 0).take n) := by
    rw [toSizeT_of_nonneg (by omega), hn, ← drop_zeroChecksum (by omega)]
    exact sliceAt_of_le rfl (by rw [length_zeroChecksum (by omega)]; omega)
  simp only [checkFrame, bind, Except.bind, hlast, himage]

/-- The frame check of a well-formed entry. -/
theorem checkFrame_of_entryAt (h : entryAt crc (buf.drop off) = some n) :
    checkFrame crc buf off (i32At (buf.drop off)) (u32At (buf.drop (off + 4))) =
      .ok (.good (zeroChecksum buf off)) := by
  obtain ⟨h8, h4, hle, hsize, hsuffix, hcrc⟩ := entryAt_eq_some h
  rw [length_drop] at h8 hle
  rw [drop_drop, ← Nat.add_sub_assoc h4] at hsuffix
  rw [drop_drop] at hcrc
  rw [checkFrame_apply _ hsize (by omega) (by omega) (by omega),
    if_neg (not_not_intro (i32At_eq_iff.mp hsuffix)), if_neg (not_not_intro hcrc)]

/-- The frame check where the length is in range but there is no well-formed entry. -/
theorem checkFrame_of_not_entryAt (h : entryAt crc (buf.drop off) = none)
    (hlen : off + 24 ≤ buf.length) (hpos : 0 < (i32At (buf.drop off)).toInt)
    (hle : off + (i32At (buf.drop off)).toInt ≤ buf.length)
    (hoff : 4 ≤ off + (i32At (buf.drop off)).toInt) :
      checkFrame crc buf off (i32At (buf.drop off)) (u32At (buf.drop (off + 4))) =
      .ok .sizeMismatch ∨ ∃ checksum2 buf', checkFrame crc buf off (i32At (buf.drop off))
        (u32At (buf.drop (off + 4))) = .ok (.badChecksum checksum2 buf') := by
  obtain ⟨n, hn⟩ := Int.eq_ofNat_of_zero_le (Int.le_of_lt hpos)
  rw [checkFrame_apply _ hn (by omega) (by omega) (by omega)]
  split
  · exact .inl rfl
  next hcode =>
    -- the trailing length agrees, so the length is four at least and the checksum is wrong
    rw [not_not] at hcode
    have h4 : 4 ≤ n := by
      by_contra hsmall
      exact small_size_mismatch rfl (by omega) hpos (by omega) (by omega) hcode
    have hcrc : u32At (buf.drop (off + 4)) ≠ crc ((zeroChecksum (buf.drop off) 0).take n) := by
      intro hcrc
      rw [Nat.add_sub_assoc h4] at hcode
      simp only [entryAt, hn] at h
      rw [if_pos ⟨by simp; omega, by omega, by simp; omega,
        by rw [drop_drop]; exact i32At_eq_iff.mpr hcode,
        by rw [drop_drop]; exact hcrc⟩] at h
      cases h
    exact .inr ⟨_, _, if_pos hcrc⟩

/-- The iterator where four bytes are left. -/
theorem nextForward_apply (h4 : off + 4 ≤ buf.length) : nextForward crc ⟨buf, off⟩ =
      if buf.length < (off + toSizeT (i32At (buf.drop off))) % 2 ^ 64 then .ok (none, ⟨buf, off⟩)
      else (readAdv crc buf off (i32At (buf.drop off)).toInt).map fun r =>
        match r.entry with
        | none => (none, ⟨r.buf, off⟩)
        | some e => (some e, ⟨r.buf, off + toSizeT (i32At (buf.drop off))⟩) := by
  have hread : readPod (ε := Exn) Int32 ⟨off, buf.drop off⟩ =
      .ok (i32At (buf.drop off), ⟨off + 4, (buf.drop off).drop 4⟩) := by
    rw [readPod_int32, if_pos (by rw [length_drop]; omega)]
  simp only [nextForward, hread, bind, Except.bind]
  congr 1
  cases readAdv crc buf off (i32At (buf.drop off)).toInt with
  | error e => rfl
  | ok r => rcases r with ⟨_ | _, _, _⟩ <;> rfl

/-- A length that is not positive ends the scan, whichever way the comparison wraps. -/
theorem nextForward_of_nonpos (h4 : off + 4 ≤ buf.length)
    (hsize : (i32At (buf.drop off)).toInt ≤ 0) :
    nextForward crc ⟨buf, off⟩ = .ok (none, ⟨buf, off⟩) := by
  rw [nextForward_apply h4, readAdv, if_pos hsize]
  split <;> rfl

section

variable (hbuf : buf.length < 2 ^ 63)
include hbuf

/-- A length in range is handed to the reader. -/
theorem nextForward_of_pos (h4 : off + 4 ≤ buf.length)
    (hpos : 0 < (i32At (buf.drop off)).toInt) : nextForward crc ⟨buf, off⟩ =
      if buf.length < off + (i32At (buf.drop off)).toInt then .ok (none, ⟨buf, off⟩)
      else (readAdv crc buf off (i32At (buf.drop off)).toInt).map fun r =>
        match r.entry with
        | none => (none, ⟨r.buf, off⟩)
        | some e => (some e, ⟨r.buf, off + (i32At (buf.drop off)).toInt.toNat⟩) := by
  have hlt := (i32At (buf.drop off)).toInt_lt
  rw [nextForward_apply h4, toSizeT_of_nonneg (by omega), Nat.mod_eq_of_lt (by omega)]
  congr 1
  simp only [eq_iff_iff]
  omega

/-- Without a well-formed entry, a safe place makes the iterator return a null pointer. -/
theorem nextForward_of_none (hoff : off < buf.length)
    (h : entryAt crc (buf.drop off) = none) (hsafe : TailSafe off (buf.drop off)) :
    ∃ buf', nextForward crc ⟨buf, off⟩ = .ok (none, ⟨buf', off⟩) := by
  have hne : buf.drop off ≠ [] := by simpa using hoff
  obtain ⟨h4, hsize⟩ := hsafe.resolve_left hne
  rw [length_drop] at h4 hsize
  by_cases hpos : 0 < (i32At (buf.drop off)).toInt
  · rw [nextForward_of_pos hbuf (by omega) hpos]
    split
    · exact ⟨buf, rfl⟩
    · obtain ⟨h24, hstart⟩ : 24 ≤ buf.length - off ∧ 4 ≤ off + (i32At (buf.drop off)).toInt := by
        omega
      rw [readAdv, if_neg (by omega)]
      simp only [bind, Except.bind, readHeader_of_le (by omega : off + 24 ≤ buf.length)]
      rcases checkFrame_of_not_entryAt h (by omega) hpos (by omega) hstart with
        hcheck | ⟨checksum2, buf', hcheck⟩ <;> rw [hcheck]
      · exact ⟨buf, rfl⟩
      · exact ⟨buf', rfl⟩
  · exact ⟨buf, nextForward_of_nonpos (by omega) (by omega)⟩

/-- Without a well-formed entry, any other place sends the iterator out of the buffer. -/
theorem nextForward_out (hsafe : ¬ TailSafe off (buf.drop off)) :
    nextForward crc ⟨buf, off⟩ = .error .outOfBuffer := by
  rw [TailSafe, length_drop] at hsafe
  push Not at hsafe
  obtain ⟨hne, hsize⟩ := hsafe
  by_cases h4 : off + 4 ≤ buf.length
  · obtain ⟨hpos, hle, hshort⟩ := hsize (by omega)
    rw [nextForward_of_pos hbuf h4 hpos, if_neg (by omega), readAdv, if_neg (by omega)]
    by_cases h24 : 24 ≤ buf.length - off
    · have hstart := hshort h24
      simp only [bind, Except.bind, readHeader_of_le (by omega : off + 24 ≤ buf.length), checkFrame,
        sliceAt_of_neg (by omega : (off : ℤ) + (i32At (buf.drop off)).toInt - 4 < 0)]
      rfl
    · have hheader := readHeader_of_lt off (by rw [length_drop]; omega : (buf.drop off).length < 24)
      simp only [bind, Except.bind, hheader]
      rfl
  · have hread : readPod (ε := Exn) Int32 ⟨off, buf.drop off⟩ = .error .outOfBuffer := by
      rw [readPod_int32, if_neg (by rw [length_drop]; omega)]
    simp only [nextForward, hread, bind, Except.bind]

/-- At a well-formed entry the commands decide. -/
theorem nextForward_of_some (h : entryAt crc (buf.drop off) = some n)
    (h24 : off + 24 ≤ buf.length) :
        nextForward crc ⟨buf, off⟩ = (readBody (off + n) ⟨off + 24, buf.drop (off + 24)⟩).map
        fun r => match r.1 with
        | none => (none, ⟨zeroChecksum buf off, off⟩)
        | some cmds => (some ⟨i64At (buf.drop (off + 8)), u64At (buf.drop (off + 16)), cmds⟩,
            ⟨zeroChecksum buf off, off + n⟩) := by
  obtain ⟨-, h4, hle, hsize, -, -⟩ := entryAt_eq_some h
  rw [length_drop] at hle
  rw [nextForward_of_pos hbuf (by omega) (by omega), if_neg (by omega), readAdv, if_neg (by omega)]
  have hdrop : (zeroChecksum buf off).drop (off + 24) = buf.drop (off + 24) :=
    drop_zeroChecksum_of_le (by omega) (by omega)
  simp only [bind, Except.bind, readHeader_of_le h24, checkFrame_of_entryAt h, hdrop, hsize,
    Int.toNat_natCast]
  cases readBody (off + n) ⟨off + 24, buf.drop (off + 24)⟩ with
  | error e => rfl
  | ok r => rcases r with ⟨_ | _, _⟩ <;> rfl

end

theorem checkFrame_good {checksum : UInt32} {buf' : Bytes}
    (h : checkFrame crc buf off size checksum = .ok (.good buf')) :
    buf' = zeroChecksum buf off := by
  simp only [checkFrame, bind, Except.bind] at h
  split at h
  · cases h
  split at h
  · cases h
  split at h
  · cases h
  split at h
  · cases h
  · cases h
    rfl

/-- An entry is only returned for a positive length, with its checksum set to zero in the buffer. -/
theorem readAdv_some {m : ℤ} {r : ReadResult WalEntry} (h : readAdv crc buf off m = .ok r)
    (he : r.entry = some e) : 0 < m ∧ off + 24 ≤ buf.length ∧ r.buf = zeroChecksum buf off := by
  rw [readAdv] at h
  split at h
  · cases h
    cases he
  next hm =>
    refine ⟨by omega, ?_⟩
    by_cases h24 : off + 24 ≤ buf.length
    · simp only [bind, Except.bind, readHeader_of_le h24] at h
      split at h
      · cases h
      next check hcheck =>
        split at h
        · cases h
          cases he
        · cases h
          cases he
        · split at h
          · cases h
          · cases h
            exact ⟨h24, checkFrame_good hcheck⟩
    · have hheader := readHeader_of_lt off (by simp; omega : (buf.drop off).length < 24)
      simp only [bind, Except.bind, hheader] at h
      cases h

namespace WalEntryIterator

/-- A step that returns an entry moves forward in a buffer of the same size. -/
theorem nextForward_moves {it' : WalEntryIterator} (h : it.nextForward crc = .ok (some e, it')) :
    it.off < it'.off ∧ it'.buf.length = it.buf.length := by
  obtain ⟨buf, off⟩ := it
  by_cases h4 : off + 4 ≤ buf.length
  · rw [nextForward_apply h4] at h
    split at h
    · cases h
    cases hr : readAdv crc buf off (i32At (buf.drop off)).toInt with
    | error err =>
      rw [hr] at h
      cases h
    | ok r =>
      rw [hr] at h
      obtain ⟨entry, ptr, buf'⟩ := r
      cases entry with
      | none => cases h
      | some e' =>
        obtain ⟨hpos, h24, rfl⟩ := readAdv_some hr rfl
        cases h
        refine ⟨?_, length_zeroChecksum (by omega)⟩
        rw [toSizeT_of_nonneg (by omega)]
        change off < off + (i32At (buf.drop off)).toInt.toNat
        omega
  · simp only [nextForward, readPod_int32, if_neg (by simp; omega : ¬ 4 ≤ (buf.drop off).length),
      bind, Except.bind] at h
    cases h

/-- The scan of recovery: `Next` until it returns a null pointer or the file is used up. It
returns the entries and where the iterator is left. -/
def scanForward (crc : Bytes → UInt32) (it : WalEntryIterator) :
    Except (Fault Exn) (List WalEntry × WalEntryIterator) :=
  if it.off < it.buf.length then
    match _hn : it.nextForward crc with
    | .error err => .error err
    | .ok (none, it') => .ok ([], it')
    | .ok (some e, it') =>
      match scanForward crc it' with
      | .error err => .error err
      | .ok (es, last) => .ok (e :: es, last)
  else .ok ([], it)
termination_by it.buf.length - it.off
decreasing_by
  have := nextForward_moves _hn
  omega

end WalEntryIterator

/-! ## The whole scan -/

/-- The scan from `off` is safe: each well-formed entry that is met holds parsable commands, and
what follows the last one is safe. -/
def ScanSafe (crc : Bytes → UInt32) (off : ℕ) (rest : Bytes) : Prop :=
  match _hn : entryAt crc rest with
  | none => TailSafe off rest
  | some n => Parsable off n rest ∧ ScanSafe crc (off + n) (rest.drop n)
termination_by rest.length
decreasing_by
  have := entryAt_eq_some _hn
  rw [List.length_drop]
  omega

theorem scanSafe_of_none (h : entryAt crc rest = none) : ScanSafe crc off rest ↔
    TailSafe off rest := by
  rw [ScanSafe]
  split <;> simp_all

theorem scanSafe_of_some (h : entryAt crc rest = some n) :
    ScanSafe crc off rest ↔ Parsable off n rest ∧ ScanSafe crc (off + n) (rest.drop n) := by
  rw [ScanSafe]
  split <;> simp_all

/-- Commands are only returned where more than the count fits before the end. -/
theorem readBody_some {ptrEnd : ℤ} {p : ℕ} {cmds : List WalCmd} {s : Cursor}
    (h : readBody ptrEnd ⟨p, rest⟩ = .ok (some cmds, s)) : (p + 4 : ℤ) < ptrEnd := by
  by_cases h4 : 4 ≤ rest.length
  · rw [readBody, bind_apply_ok (by rw [readPod_int32, if_pos h4])] at h
    by_contra hend
    cases hcnt : (i32At rest).toNatClampNeg with
    | zero =>
      rw [hcnt] at h
      change (if ptrEnd - (p + 4 + 4 : ℕ) < 0 then (pure none : Read (Option (List WalCmd)))
        else pure (some [])) ⟨p + 4 + 4, _⟩ = _ at h
      rw [if_pos (by push_cast; omega)] at h
      cases h
    | succ n =>
      have hcmds : readCmds ptrEnd (n + 1) ⟨p + 4, rest.drop 4⟩ =
          .ok (none, ⟨p + 4, rest.drop 4⟩) := by
        change (if ptrEnd - (p + 4 : ℕ) ≤ 0 then (pure none : Read (Option (List WalCmd)))
          else _) ⟨p + 4, _⟩ = _
        rw [if_pos (by push_cast; omega)]
        rfl
      rw [hcnt, bind_apply_ok hcmds] at h
      cases h
  · rw [readBody, bind_apply_error (by rw [readPod_int32, if_neg h4])] at h
    cases h

namespace WalEntryIterator

section Scan

variable {it it' last : WalEntryIterator} {es : List WalEntry}

theorem scanForward_end (h : it.buf.length ≤ it.off) : it.scanForward crc = .ok ([], it) := by
  rw [scanForward, if_neg (by omega)]

section

variable (hlt : it.off < it.buf.length)
include hlt

theorem scanForward_null
    (h : it.nextForward crc = .ok (none, it')) : it.scanForward crc = .ok ([], it') := by
  rw [scanForward, if_pos hlt]
  split <;> simp_all

theorem scanForward_error
    (h : it.nextForward crc = .error err) : it.scanForward crc = .error err := by
  rw [scanForward, if_pos hlt]
  split <;> simp_all

theorem scanForward_step (h : it.nextForward crc = .ok (some e, it')) :
    it.scanForward crc = (it'.scanForward crc).map fun r => (e :: r.1, r.2) := by
  rw [scanForward, if_pos hlt]
  split
  · simp_all
  · simp_all
  next e' it'' hn =>
    cases hn.symm.trans h
    cases it'.scanForward crc <;> rfl

end

end Scan

end WalEntryIterator

/-- The scan from an offset returns, and stops where the well-formed entries stop. -/
def ScansTo (crc : Bytes → UInt32) (it : WalEntryIterator) : Prop :=
  ∃ es last, it.scanForward crc = .ok (es, last) ∧
    last.off = it.off + wellFormedLength crc (it.buf.drop it.off)

theorem not_scansTo_of_error (hlt : it.off < it.buf.length)
    (h : it.nextForward crc = .error err) : ¬ ScansTo crc it := by
  rintro ⟨es, last, hscan, -⟩
  rw [scanForward_error hlt h] at hscan
  cases hscan

/-- The step of the induction: an entry is scanned exactly when it is parsable and the scan goes
on from its end. -/
theorem scansTo_of_some (hbuf : buf.length < 2 ^ 63) (h : entryAt crc (buf.drop off) = some n) :
    ScansTo crc ⟨buf, off⟩ ↔ Parsable off n (buf.drop off) ∧
    ScansTo crc ⟨zeroChecksum buf off, off + n⟩ := by
  obtain ⟨h8, h4, hle, hsize, -, -⟩ := entryAt_eq_some h
  rw [length_drop] at h8 hle
  have hlt : off < buf.length := by omega
  have hlen : wellFormedLength crc (buf.drop off) =
      n + wellFormedLength crc (buf.drop (off + n)) := by
    rw [wellFormedLength_of_some h, drop_drop]
  by_cases h24 : off + 24 ≤ buf.length
  · have hnext := nextForward_of_some hbuf h h24
    have hparse : Parsable off n (buf.drop off) ↔ ∃ cmds s,
        readBody (off + n) ⟨off + 24, buf.drop (off + 24)⟩ = .ok (some cmds, s) := by
      rw [Parsable, drop_drop, length_drop]
      exact and_iff_right (by omega)
    rw [hparse]
    cases hbody : readBody (off + n) ⟨off + 24, buf.drop (off + 24)⟩ with
    | error err =>
      rw [hbody] at hnext
      exact iff_of_false (not_scansTo_of_error hlt hnext) (by simp)
    | ok r =>
      obtain ⟨cmds, s⟩ := r
      rw [hbody] at hnext
      cases cmds with
      | none =>
        refine iff_of_false ?_ (by simp)
        rintro ⟨es, last, hscan, hoff⟩
        rw [scanForward_null hlt hnext] at hscan
        cases hscan
        simp only [hlen] at hoff
        omega
      | some cmds =>
        have hend := readBody_some hbody
        have hdrop : (zeroChecksum buf off).drop (off + n) = buf.drop (off + n) :=
          drop_zeroChecksum_of_le (by omega) (by push_cast at hend; omega)
        simp only [ScansTo, scanForward_step hlt hnext, hlen, hdrop]
        cases (⟨zeroChecksum buf off, off + n⟩ : WalEntryIterator).scanForward crc with
        | error err => simp [Except.map]
        | ok r =>
          obtain ⟨es, last⟩ := r
          simp [Except.map, Nat.add_assoc]
  · -- the header does not fit: the reader leaves the buffer
    have hsafe : ¬ TailSafe off (buf.drop off) := by
      rw [TailSafe, length_drop, drop_eq_nil_iff]
      omega
    refine iff_of_false (not_scansTo_of_error hlt (nextForward_out hbuf hsafe)) ?_
    rintro ⟨⟨h24', -⟩, -⟩
    rw [length_drop] at h24'
    omega

/-- Where no well-formed entry stands, the scan stops at once or leaves the buffer. -/
theorem scansTo_of_none (hbuf : buf.length < 2 ^ 63) (hoff : off ≤ buf.length)
    (h : entryAt crc (buf.drop off) = none) : ScansTo crc ⟨buf, off⟩ ↔
    TailSafe off (buf.drop off) := by
  rcases Nat.lt_or_eq_of_le hoff with hlt | rfl
  · by_cases hsafe : TailSafe off (buf.drop off)
    · obtain ⟨buf', hnext⟩ := nextForward_of_none hbuf hlt h hsafe
      refine iff_of_true ⟨[], _, scanForward_null hlt hnext, ?_⟩ hsafe
      simp only [wellFormedLength_of_none h, Nat.add_zero]
    · exact iff_of_false (not_scansTo_of_error hlt (nextForward_out hbuf hsafe)) hsafe
  · refine iff_of_true ⟨[], _, scanForward_end (le_rfl), ?_⟩ (.inl drop_length)
    simp only [wellFormedLength_of_none h, Nat.add_zero]

/-- The scan from any offset; the induction is on the bytes that are left. -/
theorem scansTo_iff (buf : Bytes) (off : ℕ) (hbuf : buf.length < 2 ^ 63)
    (hoff : off ≤ buf.length) : ScansTo crc ⟨buf, off⟩ ↔ ScanSafe crc off (buf.drop off) := by
  cases h : entryAt crc (buf.drop off) with
  | none => rw [scansTo_of_none hbuf hoff h, scanSafe_of_none h]
  | some n =>
    rw [scansTo_of_some hbuf h, scanSafe_of_some h, drop_drop]
    refine and_congr_right fun hparse => ?_
    obtain ⟨h8, h4, hle, -, -, -⟩ := entryAt_eq_some h
    obtain ⟨-, cmds, s, hbody⟩ := hparse
    have hend := readBody_some hbody
    rw [length_drop] at h8 hle
    have hlen := length_zeroChecksum (by omega : off + 8 ≤ buf.length)
    have hdrop : (zeroChecksum buf off).drop (off + n) = buf.drop (off + n) :=
      drop_zeroChecksum_of_le (by omega) (by push_cast at hend; omega)
    have hdec : (zeroChecksum buf off).length - (off + n) < buf.length - off := by omega
    rw [scansTo_iff (zeroChecksum buf off) (off + n) (by omega) (by omega), hdrop]
termination_by buf.length - off
decreasing_by exact hdec

/-- Behind the header of a framed entry stand the number of its commands and these. -/
theorem drop_framed (crc : Bytes → UInt32) (e : WalEntry) (cmds post : Bytes) :
    (framed crc (e.body cmds) ++ post).drop 24 = writePod (Int32.ofNat e.cmds.length) ++
      (cmds ++ (writePod (Int32.ofNat (frameSize (e.body cmds))) ++ post)) := by
  have hsplit :
      framed crc (e.body cmds) ++ post = (writePod (Int32.ofNat (frameSize (e.body cmds))) ++
      (writePod (crc (frame (e.body cmds) (Int32.ofNat (frameSize (e.body cmds))) 0)) ++
        (writePod e.txnId ++ writePod e.commitTs))) ++ (writePod (Int32.ofNat e.cmds.length) ++
      (cmds ++ (writePod (Int32.ofNat (frameSize (e.body cmds))) ++ post))) := by
    simp only [framed, frame, body, append_assoc]
  rw [hsplit]
  exact drop_left' (by simp [Pod.width])

/-- The command readers get through what was logged exactly if the entry is encodable. -/
theorem parsable_iff (hlog : Logged crc (rest.take n) e) (hn : n ≤ rest.length) :
    Parsable off n rest ↔ e.Encodable := by
  obtain ⟨hwrite, hsize⟩ := hlog
  obtain ⟨hcounted, hlim⟩ := ((e.sized crc).toInt_eq_iff hwrite).mp hsize
  obtain ⟨cmds, hw, hlen⟩ := exists_of_writeFrame hwrite
  rw [hlen] at hlim
  have hframe := e.frameSize_body cmds
  rw [length_take, Nat.min_eq_left hn, hframe, headerSize] at hlen
  have hrest : rest = framed crc (e.body cmds) ++ rest.drop n := by
    rw [e.writeAdv_eq crc hw hlim] at hwrite
    rw [Except.ok.inj hwrite, take_append_drop]
  have hdrop : rest.drop 24 = writePod (Int32.ofNat e.cmds.length) ++
      (cmds ++ (writePod (Int32.ofNat (frameSize (e.body cmds))) ++ rest.drop n)) := by
    conv_lhs => rw [hrest]
    exact drop_framed ..
  rw [Parsable, hdrop, and_iff_right (by omega)]
  constructor
  · rintro ⟨cs, s, hread⟩
    by_contra hbad
    have hfails : FailsAt (off + 24) (readBody (off + n)) (writePod (Int32.ofNat e.cmds.length) ++
        (cmds ++ writePod (Int32.ofNat (frameSize (e.body cmds))))) :=
      readBody_fails hw hcounted (by simpa [WalEntry.Encodable] using hbad) (by omega)
        (by push_cast; omega)
    obtain ⟨err, herr⟩ := hfails (rest.drop n)
    simp only [append_assoc] at herr
    cases hread.symm.trans herr
  · intro henc
    have hreads : ReadsAt (off + 24) (readBody (off + n)) (writePod (Int32.ofNat e.cmds.length) ++
        (cmds ++ writePod (Int32.ofNat (frameSize (e.body cmds))))) (some e.cmds) :=
      readBody_reads hw henc (by omega) (length_writePod _) (by push_cast; omega)
    have hread := hreads (rest.drop n)
    simp only [append_assoc] at hread
    exact ⟨_, _, hread⟩

/-- The scan is safe where encodable entries were logged and the tail is safe. -/
theorem scanSafe_of_allLogged (rest : Bytes) (off : ℕ)
    (hlog : AllLogged crc WalEntry.Encodable rest)
    (htail : TailSafe (off + wellFormedLength crc rest) (rest.drop (wellFormedLength crc rest))) :
    ScanSafe crc off rest := by
  cases h : entryAt crc rest with
  | none =>
    rw [wellFormedLength_of_none h] at htail
    exact (scanSafe_of_none h).mpr htail
  | some n =>
    obtain ⟨-, h4, hle, -⟩ := entryAt_eq_some h
    obtain ⟨⟨e, he, henc⟩, hlog⟩ := (allLogged_of_some h).mp hlog
    rw [wellFormedLength_of_some h, ← drop_drop, ← Nat.add_assoc] at htail
    refine (scanSafe_of_some h).mpr ⟨(parsable_iff he hle).mpr henc, ?_⟩
    have hdec : (rest.drop n).length < rest.length := by rw [length_drop]; omega
    exact scanSafe_of_allLogged (rest.drop n) (off + n) hlog htail
termination_by rest.length
decreasing_by exact hdec

/-- Where the scan is safe, the tail is, and what was logged was logged for encodable entries. -/
theorem allLogged_of_scanSafe (rest : Bytes) (off : ℕ) (hsafe : ScanSafe crc off rest) :
    TailSafe (off + wellFormedLength crc rest) (rest.drop (wellFormedLength crc rest)) ∧
      (AllLogged crc (fun _ => True) rest → AllLogged crc WalEntry.Encodable rest) := by
  cases h : entryAt crc rest with
  | none =>
    rw [wellFormedLength_of_none h]
    exact ⟨(scanSafe_of_none h).mp hsafe, fun _ => allLogged_of_none h⟩
  | some n =>
    obtain ⟨-, h4, hle, -⟩ := entryAt_eq_some h
    obtain ⟨hparse, hsafe⟩ := (scanSafe_of_some h).mp hsafe
    have hdec : (rest.drop n).length < rest.length := by rw [length_drop]; omega
    obtain ⟨htail, hlogged⟩ := allLogged_of_scanSafe (rest.drop n) (off + n) hsafe
    rw [wellFormedLength_of_some h, ← drop_drop, ← Nat.add_assoc, allLogged_of_some h,
      allLogged_of_some h]
    refine ⟨htail, fun hlog => ?_⟩
    obtain ⟨⟨e, he, -⟩, hlog⟩ := hlog
    exact ⟨⟨e, he, (parsable_iff he hle).mp hparse⟩, hlogged hlog⟩
termination_by rest.length
decreasing_by exact hdec

/-- The bytes of a file; a file's size is a signed word of 64 bits. -/
abbrev WalFileBytes := { bs : Bytes // bs.length < 2 ^ 63 }

/-- The file is made of entries that the codec carries, up to a tail that does not send the reader
out of the buffer. -/
def Scannable (crc : Bytes → UInt32) (file : Bytes) : Prop :=
  AllLogged crc WalEntry.Encodable file ∧
    TailSafe (wellFormedLength crc file) (file.drop (wellFormedLength crc file))

variable {es : List WalEntry} {post : Bytes}

theorem i32At_of_writeFrame {body : Bytes} (h : writeFrame crc body = .ok bs) :
    i32At (bs ++ post) = Int32.ofNat bs.length := by
  rw [length_of_writeFrame h]
  obtain ⟨-, ⟨⟩⟩ := ite_eq_iff.mp h |>.resolve_right nofun
  rw [i32At_eq_iff, frame, append_assoc]
  exact (congrArg leValue (take_left' (length_writePod (α := Int32) _))).trans
    (leValue_leBytes_of_lt (Pod.code_lt _))

/-- An entry is read where it stands, and the bytes behind it stay. -/
theorem nextForward_written (hbuf : buf.length < 2 ^ 63) (he : e.RoundTrips crc)
    (hw : e.writeAdv crc = .ok bs) (hdrop : buf.drop off = bs ++ post) (hoff : off ≤ buf.length) :
      ∃ buf', nextForward crc ⟨buf, off⟩ = .ok (some e, ⟨buf', off + bs.length⟩) ∧
        off < buf.length ∧ buf'.length = buf.length ∧ buf'.drop (off + bs.length) = post := by
  obtain ⟨bs', hw', hsize, hread⟩ := he
  cases hw.symm.trans hw'
  obtain ⟨buf', hread⟩ := hread (buf.take off) post
  rw [← hdrop, take_append_drop, length_take, Nat.min_eq_left hoff] at hread
  obtain ⟨-, h24, rfl⟩ := readAdv_some hread rfl
  obtain ⟨-, hlim⟩ := ((e.sized crc).toInt_eq_iff hw).mp hsize
  obtain ⟨cmds, hframe⟩ : ∃ cmds, writeFrame crc (e.body cmds) = .ok bs := by
    simp only [writeAdv, bind, Except.bind] at hw
    split at hw
    · cases hw
    · exact ⟨_, hw⟩
  have hlen : bs.length = 4 + 4 + (e.body cmds).length + 4 := length_of_writeFrame hframe
  have hfits := congrArg length hdrop
  rw [length_drop, length_append] at hfits
  have hentry : (i32At (buf.drop off)).toInt = bs.length := by
    rw [hdrop, i32At_of_writeFrame hframe, Int32.toInt_ofNat_of_lt hlim]
  refine ⟨zeroChecksum buf off, ?_, by omega, length_zeroChecksum (by omega), ?_⟩
  · rw [nextForward_of_pos hbuf (by omega) (by omega), if_neg (by omega), hentry, hread]
    simp only [Except.map, Int.toNat_natCast]
  · rw [drop_zeroChecksum_of_le (by omega) (by omega), ← drop_drop, hdrop, drop_left]

end Infinity.Wal
