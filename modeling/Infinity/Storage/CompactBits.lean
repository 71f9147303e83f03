import Mathlib.Tactic.Common

/-! # Copies of bit ranges (`VectorBuffer::CopyCompactBits`)

Booleans are stored as bits. Where source and destination are aligned alike, the copy is exact.
Otherwise only the bits up to the next byte of the destination are right: a later byte takes its two
parts from two bytes of the source, and they are not shifted to their places.

* `Copies`: what an exact copy is.
* `copyCompactBits_exact_iff`: for which ranges the copy is exact.
-/

namespace Infinity.Storage

open List Option

/-- `u8`. -/
abbrev Byte := BitVec 8

/-- The bytes from a pointer on. -/
abbrev Memory := ℕ → Byte

/-- The bits of the mask are replaced in a byte. -/
def store (dst : Memory) (i : ℕ) (b mask : Byte) : Memory := fun k =>
  if k = i then dst i &&& ~~~mask ||| b &&& mask else dst k

/-- `RawPointerSetCompactBit` of the bit that `RawPointerGetCompactBit` reads, for `n` bits. A read
behind the end of the source fails. -/
def copyBits (src : List Byte) : ℕ → ℕ → ℕ → Memory → Option Memory
  | 0, _, _, dst => some dst
  | n + 1, d, s, dst => do
    let b ← src[s / 8]?
    copyBits src n (d + 1) (s + 1)
      (store dst (d / 8) (if b.getLsbD (s % 8) then 255#8 else 0#8) (BitVec.twoPow 8 (d % 8)))

/-- A loop that writes `n` bytes; `memcpy`, if the bytes are those of the source. -/
def copyBytes (byteAt : ℕ → Option Byte) : ℕ → ℕ → ℕ → Memory → Option Memory
  | 0, _, _, dst => some dst
  | n + 1, i, j, dst => do
    let b ← byteAt j
    copyBytes byteAt n (i + 1) (j + 1) (store dst i b 255#8)

/-- The bytes of an aligned range and the bits behind them, if it starts at a byte. -/
def copyAligned (src : List Byte) (d s count : ℕ) (dst : Memory) : Option Memory := do
  let dst ← copyBytes (src[·]?) (count / 8) (d / 8) (s / 8) dst
  let extra := count % 8
  if extra ≠ 0 then
    let b ← src[(s + count) / 8]?
    some (store dst ((d + count) / 8) b (~~~(255#8 <<< extra)))
  else some dst

/-- The byte that is put together of two bytes of the source. -/
def twoParts (src : List Byte) (start j : ℕ) : Option Byte := do
  let src1 ← src[j]?
  let src2 ← src[j + 1]?
  let mask1 := 255#8 <<< start
  some (src1 &&& mask1 ||| src2 &&& ~~~mask1)

/-- What follows the head part, where the ranges are not aligned alike. -/
def copyUnaligned (src : List Byte) (d s count : ℕ) (dst : Memory) : Option Memory := do
  let dst ← copyBytes (twoParts src (s % 8)) (count / 8) (d / 8) (s / 8) dst
  let tail := count % 8
  if tail ≠ 0 then
    let full ← twoParts src (s % 8) (s / 8 + count / 8)
    some (store dst (d / 8 + count / 8) full (~~~(255#8 <<< tail)))
  else some dst

/-- `VectorBuffer::CopyCompactBits`. -/
def copyCompactBits (dst : Memory) (src : List Byte) (d s count : ℕ) : Option Memory :=
  if s % 8 = d % 8 then
    let start := s % 8
    let todo := 8 - start
    if start = 0 then copyAligned src d s count dst
    else src[s / 8]?.bind fun b =>
      if count ≤ todo
        then some (store dst (d / 8) b (255#8 <<< start &&& ~~~(255#8 <<< (start + count))))
      else copyAligned src (d + todo) (s + todo) (count - todo)
        (store dst (d / 8) b (255#8 <<< start))
  else
    -- there is no head part, if the destination starts at a byte
    let todo := min count ((8 - d % 8) % 8)
    copyBits src todo d s dst >>= copyUnaligned src (d + todo) (s + todo) (count - todo)

/-! ## Exact copies -/

/-- A bit of the memory. -/
def bit (m : Memory) (i : ℕ) : Bool := (m (i / 8)).getLsbD (i % 8)

/-- The result has the bits `[s, s + n)` of the source at `[d, d + n)` and the other bits as
before. -/
def Copies (r : Option Memory) (dst : Memory) (src : List Byte) (d s n : ℕ) : Prop :=
  ∃ dst', r = some dst' ∧ ∀ i, some (bit dst' i) =
    if d ≤ i ∧ i < d + n then src[(s + (i - d)) / 8]?.map (·.getLsbD ((s + (i - d)) % 8))
    else some (bit dst i)

variable {dst m : Memory} {src : List Byte} {d s n k t : ℕ} {b mask : Byte}

theorem copies_zero : Copies (some dst) dst src d s 0 :=
  ⟨dst, rfl, fun i => (if_neg (by omega)).symm⟩

theorem Copies.bind {r : Option Memory} {f : Memory → Option Memory} (h : Copies r dst src d s n)
    (hn : n ≤ t) (hf : ∀ m, Copies (f m) m src (d + n) (s + n) (t - n)) :
    Copies (r >>= f) dst src d s t := by
  obtain ⟨m, rfl, hm⟩ := h
  obtain ⟨dst', hr, hdst⟩ := hf m
  refine ⟨dst', hr, fun i => ?_⟩
  rw [hdst, hm]
  grind

theorem copies_store (hn : d % 8 + n ≤ 8)
    (hmask : ∀ k < 8, mask.getLsbD k = decide (d % 8 ≤ k ∧ k < d % 8 + n))
    (hb : ∀ k < n, src[(s + k) / 8]?.map (·.getLsbD ((s + k) % 8)) = some (b.getLsbD (d % 8 + k))) :
    Copies (some (store dst (d / 8) b mask)) dst src d s n := by
  refine ⟨_, rfl, fun i => ?_⟩
  unfold bit store
  by_cases hi : i / 8 = d / 8
  · rw [if_pos hi, BitVec.getLsbD_or, BitVec.getLsbD_and, BitVec.getLsbD_and, BitVec.getLsbD_not,
      hmask _ (by omega), hi]
    by_cases hrange : d ≤ i ∧ i < d + n
    · rw [if_pos hrange, hb _ (by omega), show d % 8 + (i - d) = i % 8 by omega]
      grind
    · rw [if_neg hrange]
      grind
  · rw [if_neg hi, if_neg (by omega)]

/-- A part of a byte of the source that goes to the same places. -/
theorem copies_part (halign : s % 8 = d % 8) (hb : src[s / 8]? = some b) (hn : d % 8 + n ≤ 8)
    (hmask : ∀ k < 8, mask.getLsbD k = decide (d % 8 ≤ k ∧ k < d % 8 + n)) :
    Copies (some (store dst (d / 8) b mask)) dst src d s n := by
  refine copies_store hn hmask fun k hk => ?_
  rw [show (s + k) / 8 = s / 8 by omega, hb, map_some, show (s + k) % 8 = d % 8 + k by omega]

theorem getLsbD_ones (hk : k < 8) : (255#8 <<< n).getLsbD k = decide (n ≤ k) := by
  have hone : (255#8).getLsbD (k - n) = decide (k - n < 8) := BitVec.getLsbD_allOnes
  rw [BitVec.getLsbD_shiftLeft, hone]
  grind

theorem copies_copyBits (hs : s + n ≤ 8 * src.length) :
    Copies (copyBits src n d s dst) dst src d s n := by
  induction n generalizing d s dst with
  | zero => exact copies_zero
  | succ n ih =>
    rw [copyBits, getElem?_eq_getElem (by omega)]
    refine (copies_store (n := 1) (by omega) (fun k hk => ?_) fun k hk => ?_).bind
      (Nat.le_add_left 1 n) fun m => ih (by omega)
    · rw [BitVec.getLsbD_twoPow]
      grind
    · obtain rfl : k = 0 := by omega
      rw [Nat.add_zero, getElem?_eq_getElem (by omega), map_some, Nat.add_zero]
      cases src[s / 8].getLsbD (s % 8)
      · exact congrArg some BitVec.getLsbD_zero.symm
      · exact congrArg
          some ((getLsbD_ones (n := 0) (by omega)).trans (decide_eq_true (Nat.zero_le _))).symm

theorem copies_memcpy {i j : ℕ} (hj : j + n ≤ src.length) :
    Copies (copyBytes (src[·]?) n i j dst) dst src (8 * i) (8 * j) (8 * n) := by
  induction n generalizing i j dst with
  | zero => exact copies_zero
  | succ n ih =>
    have hi8 : 8 * i / 8 = i := Nat.mul_div_cancel_left i (by decide)
    rw [copyBytes, getElem?_eq_getElem (by omega)]
    have hpart : Copies (some (store dst (8 * i / 8) src[j] 255#8)) dst src (8 * i) (8 * j) 8 := by
      refine copies_part (by omega) ?_ (by omega) fun k hk => ?_
      · rw [Nat.mul_div_cancel_left j (by decide), getElem?_eq_getElem]
      · exact (getLsbD_ones (n := 0) hk).trans (by grind)
    rw [hi8] at hpart
    exact hpart.bind (by omega) fun m => ih (by omega)

theorem copies_copyAligned (hd8 : d % 8 = 0) (hs8 : s % 8 = 0) (hs : s + n ≤ 8 * src.length) :
    Copies (copyAligned src d s n dst) dst src d s n := by
  have hcopy : Copies (copyBytes (src[·]?) (n / 8) (d / 8) (s / 8) dst) dst src _ _ _ :=
    copies_memcpy (by omega)
  rw [Nat.mul_div_cancel' (Nat.dvd_of_mod_eq_zero hd8),
    Nat.mul_div_cancel' (Nat.dvd_of_mod_eq_zero hs8)] at hcopy
  refine hcopy.bind (by omega) fun m => ?_
  dsimp only
  rw [← Nat.mod_eq_sub]
  split
  next hne =>
    rw [show (d + n) / 8 =
      (d + 8 * (n / 8)) / 8 by omega, show (s + n) / 8 = (s + 8 * (n / 8)) / 8 by omega,
      getElem?_eq_getElem (by omega)]
    refine copies_part (by omega) (getElem?_eq_getElem _) (by omega) fun k hk => ?_
    rw [BitVec.getLsbD_not, getLsbD_ones hk]
    grind
  next hzero =>
    rw [not_not.mp hzero]
    exact copies_zero

theorem copies_of_aligned (halign : s % 8 = d % 8) (hs : s + n ≤ 8 * src.length) :
    Copies (copyCompactBits dst src d s n) dst src d s n := by
  rw [copyCompactBits, if_pos halign]
  dsimp only
  split
  next hstart => exact copies_copyAligned (by omega) hstart hs
  next hstart =>
    have hb := getElem?_eq_getElem (l := src) (i := s / 8) (by omega)
    rw [hb, bind_some]
    split
    next hn =>
      refine copies_part halign hb (by omega) fun k hk => ?_
      rw [BitVec.getLsbD_and, BitVec.getLsbD_not, getLsbD_ones hk, getLsbD_ones hk]
      grind
    next hn =>
      refine (copies_part (n := 8 - s % 8) halign hb (by omega) fun k hk => ?_).bind (by omega)
        fun m => copies_copyAligned (by omega) (by omega) (by omega)
      rw [getLsbD_ones hk]
      grind

theorem copies_of_le (halign : s % 8 ≠ d % 8) (hn : n ≤ (8 - d % 8) % 8)
    (hs : s + n ≤ 8 * src.length) : Copies (copyCompactBits dst src d s n) dst src d s n := by
  rw [copyCompactBits, if_neg halign]
  dsimp only
  rw [Nat.min_eq_left hn, Nat.sub_self]
  refine (copies_copyBits hs).bind (Nat.le_refl n) fun m => ?_
  rw [Nat.sub_self]
  exact copies_zero

/-! ## Bytes of two parts -/

/-- The lowest bits of the bytes are zero. -/
def LowZero (m : Memory) : Prop := ∀ i, (m i).getLsbD 0 = false

theorem LowZero.store {i : ℕ} (h : LowZero dst) (hb : (b &&& mask).getLsbD 0 = false) :
    LowZero (Storage.store dst i b mask) := by
  intro j
  unfold Storage.store
  split
  · rw [BitVec.getLsbD_or, hb, BitVec.getLsbD_and, h i]
    rfl
  · exact h j

theorem low_twoParts (hsrc : ∀ b ∈ src, b.getLsbD 0 = false) (h : twoParts src n k = some b) :
    (b &&& mask).getLsbD 0 = false := by
  obtain ⟨a, ha, h⟩ := bind_eq_some_iff.mp h
  obtain ⟨c, hc, ⟨⟩⟩ := bind_eq_some_iff.mp h
  simp only [BitVec.getLsbD_or, BitVec.getLsbD_and, hsrc a (mem_of_getElem? ha),
    hsrc c (mem_of_getElem? hc)]
  rfl

theorem LowZero.copyBits (h : LowZero dst) (hn : n ≤ (8 - d % 8) % 8)
    (hcopy : Storage.copyBits src n d s dst = some m) : LowZero m := by
  induction n generalizing d s dst with
  | zero => exact some.inj hcopy ▸ h
  | succ n ih =>
    obtain ⟨b, -, hcopy⟩ := bind_eq_some_iff.mp hcopy
    refine ih (h.store ?_) (by omega) hcopy
    rw [BitVec.getLsbD_and, BitVec.getLsbD_twoPow]
    grind

section

variable (hsrc : ∀ b ∈ src, b.getLsbD 0 = false) (h : LowZero dst)
include hsrc h

theorem LowZero.copyBytes {i j : ℕ}
    (hcopy : Storage.copyBytes (twoParts src k) n i j dst = some m) : LowZero m := by
  induction n generalizing i j dst with
  | zero => exact some.inj hcopy ▸ h
  | succ n ih =>
    obtain ⟨b, hb, hcopy⟩ := bind_eq_some_iff.mp hcopy
    exact ih (h.store (low_twoParts hsrc hb)) hcopy

theorem LowZero.copyCompactBits (halign : s % 8 ≠ d % 8)
    (hcopy : Storage.copyCompactBits dst src d s n = some m) : LowZero m := by
  rw [Storage.copyCompactBits, if_neg halign] at hcopy
  obtain ⟨dst₁, hbits, hcopy⟩ := bind_eq_some_iff.mp hcopy
  obtain ⟨dst₂, hbytes, hcopy⟩ := bind_eq_some_iff.mp hcopy
  have hlow := (h.copyBits (Nat.min_le_right ..) hbits).copyBytes hsrc hbytes
  dsimp only at hcopy
  split at hcopy
  · obtain ⟨full, hfull, ⟨⟩⟩ := bind_eq_some_iff.mp hcopy
    exact hlow.store (low_twoParts hsrc hfull)
  · exact some.inj hcopy ▸ hlow

end

/-- **When the copy is exact**: for all sources around their range, if the ranges are aligned alike
or end with the first bits up to a byte of the destination. The source may end with its range, so
nothing behind it is read. -/
theorem copyCompactBits_exact_iff (d s count : ℕ) :
    (∀ (dst : Memory) (src : List Byte), s + count ≤ 8 * src.length →
      Copies (copyCompactBits dst src d s count) dst src d s count) ↔
    s % 8 = d % 8 ∨ count ≤ (8 - d % 8) % 8 := by
  constructor
  · intro h
    by_contra hcon
    obtain ⟨halign, hcount⟩ := not_or.mp hcon
    -- a source whose bytes all have the first bit behind the head part, and no other one
    let b := BitVec.twoPow 8 ((s + (8 - d % 8) % 8) % 8)
    have hb : b.getLsbD 0 = false := by
      rw [BitVec.getLsbD_twoPow]
      grind
    obtain ⟨m, hcopy, hbits⟩ :=
      h (fun _ => 0) (replicate (s + count) b) (by rw [length_replicate]; omega)
    have hlow : LowZero m :=
      LowZero.copyCompactBits (fun c hc => eq_of_mem_replicate hc ▸ hb) (fun _ => rfl) halign hcopy
    have hbit := hbits (d + (8 - d % 8) % 8)
    rw [if_pos (by omega), Nat.add_sub_cancel_left, bit, getElem?_replicate_of_lt (by omega),
      map_some, BitVec.getLsbD_twoPow, show (d + (8 - d % 8) % 8) % 8 = 0 by omega, hlow] at hbit
    grind
  · rintro (halign | hcount) dst src hs
    · exact copies_of_aligned halign hs
    · by_cases halign : s % 8 = d % 8
      · exact copies_of_aligned halign hs
      · exact copies_of_le halign hcount hs

/-- A bit from place 1 to place 0 is lost. -/
theorem not_copies_bit :
    ¬ Copies (copyCompactBits (fun _ => 0) [2#8, 0#8] 0 1 1) (fun _ => 0) [2#8, 0#8] 0 1 1 := by
  rintro ⟨dst, ⟨⟩, hbits⟩
  exact absurd (hbits 0) (by decide)

end Infinity.Storage
