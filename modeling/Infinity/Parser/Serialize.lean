import Infinity.Foundations.ByteCodec

/-! # The buffer primitives of `parser/type/serialize.h`

`WriteBufAdv` and `ReadBufAdv` of a plain value are the library's `writePod` and `readPod`; of a
string they carry a signed 32-bit length in front. Sizes are signed 32-bit numbers that wrap, as
`GetSizeInBytes` computes them.

* `readString_writeString`: a string shorter than `2 ^ 31` bytes is read back.
* `readVector_writeVector`: so is a counted list, when its items are.
-/

namespace Infinity.Parser

open Foundations List

variable {p n : ℕ} {bs : Bytes} {s s' : Cursor} {good good' : Prop} {a : Bytes} {b : Bytes}

/-- The errors the modelled code raises, and what it does outside the language's definition. -/
inductive Exn where
  /-- `UnrecoverableError` with its text. -/
  | unrecoverable (message : String)
  /-- `ParserError`, or a failed `ParserAssert`. -/
  | parser (message : String)
  /-- `std::length_error` of the `std::string` constructor. -/
  | lengthError
  /-- A null pointer is followed or memory is overrun. -/
  | undefined (what : String)
  deriving DecidableEq, Repr

/-- A reader of the modelled code. -/
abbrev Read (α : Type) := Reader Exn α

/-- `2 ^ 31`, the first length that a signed 32-bit size does not hold. -/
def sizeLimit : ℕ := 2147483648

theorem toNatClampNeg_ofNat (h : n < sizeLimit) : (Int32.ofNat n).toNatClampNeg = n :=
  Int32.toNatClampNeg_ofNat_of_lt h

theorem not_ofNat_neg (h : n < sizeLimit) : ¬ Int32.ofNat n < 0 :=
  Int32.not_lt.mpr (Int32.zero_le_ofNat_of_lt h)

/-- A 32-bit size that wraps is not above the number it was computed from unless it is exact. -/
theorem toInt_ofNat_eq_iff {len : ℕ} (h : n ≤ len) : (Int32.ofNat n).toInt = len ↔
    n = len ∧ len < sizeLimit := by
  constructor
  · intro heq
    have hlt : (len : ℤ) < 2 ^ 31 := heq ▸ (Int32.ofNat n).toInt_lt
    have hlen : len < sizeLimit := by unfold sizeLimit; omega
    have hn : (Int32.ofNat n).toInt = n := Int32.toInt_ofNat_of_lt (Nat.lt_of_le_of_lt h hlen)
    exact ⟨by omega, hlen⟩
  · rintro ⟨rfl, hlen⟩
    exact Int32.toInt_ofNat_of_lt hlen

/-! ## Strings -/

/-- `WriteBufAdv` of a string. -/
def writeString (s : Bytes) : Bytes := writePod (Int32.ofNat s.length) ++ s

/-- `ReadBufAdv` of a string: a negative length becomes a huge `size_t`, which the constructor of
`std::string` refuses. -/
def readString : Read Bytes := do
  let size ← readPod Int32
  if size < 0 then raise .lengthError else readBytes size.toNatClampNeg

/-- `GetSizeInBytes` of a string, before it is cut to 32 bits. -/
def stringSize (s : Bytes) : ℕ := 4 + s.length

@[simp] theorem length_writeString (s : Bytes) : (writeString s).length = stringSize s := by
  simp [writeString, stringSize, Pod.width]

theorem readString_writeString {s : Bytes} (h : s.length < sizeLimit) :
    ReadsAt p readString (writeString s) s := by
  refine .bind (.readPod _) ?_
  rw [if_neg (not_ofNat_neg h), toNatClampNeg_ofNat h]
  exact .readBytes rfl

theorem lt_of_append (h : (a ++ b).length < n) : b.length < n := by
  rw [length_append] at h
  omega

section Sequence

variable {β : Type} {a : Bytes} {f : Bytes → Read β} {b : β}

/-- A string and what follows it, if their bytes number fewer than `2 ^ 31`. -/
theorem string_bind (hlim : (writeString a ++ bs).length < sizeLimit)
    (h : bs.length < sizeLimit → ReadsAt (p + (writeString a).length) (f a) bs b) :
    ReadsAt p (readString >>= f) (writeString a ++ bs) b := by
  refine (readString_writeString ?_).bind (h (lt_of_append hlim))
  rw [length_append, length_writeString, stringSize] at hlim
  omega

theorem string_last (hlim : (writeString a).length < sizeLimit)
    (h : ReadsAt (p + (writeString a).length) (f a) [] b) :
    ReadsAt p (readString >>= f) (writeString a) b := by
  rw [← append_nil (writeString a)] at hlim ⊢
  exact string_bind hlim fun _ => by simpa using h

end Sequence

/-- A string that was read has taken as many bytes as it takes to write it. -/
theorem pos_of_readString (h : readString s = .ok (a, s')) : s'.pos = s.pos + stringSize a := by
  obtain ⟨size, t, hsize, hrest⟩ := bind_apply_eq_ok.mp h
  split at hrest
  · cases hrest
  · obtain ⟨hpos, hlength⟩ := pos_of_readBytes hrest
    rw [hpos, pos_of_readPod hsize, stringSize, hlength, Nat.add_assoc]
    rfl

/-! ## Counted lists -/

variable {α : Type}

def writeVector (w : α → Bytes) (as : List α) : Bytes :=
  writePod (Int32.ofNat as.length) ++ as.flatMap w

/-- Read a count and then as many items: a negative count runs the loop not at all. -/
def readVector (r : Read α) : Read (List α) := do
  let count ← readPod Int32
  readMany count.toNatClampNeg r

@[simp] theorem length_writeVector (w : α → Bytes) (as : List α) :
    (writeVector w as).length = 4 + (as.flatMap w).length := by
  simp [writeVector, Pod.width]

variable {as : List α} {r : Read α} {w : α → Bytes}

section

variable (hcount : as.length < sizeLimit)
  (h : ∀ a ∈ as, ∀ q, p + 4 ≤ q → q + (w a).length ≤ p + (writeVector w as).length →
    ReadsAt q r (w a) a)
include hcount h

theorem readVector_writeVector : ReadsAt p (readVector r) (writeVector w as) as := by
  refine .bind (.readPod _) ?_
  rw [toNatClampNeg_ofNat hcount]
  refine .many fun a ha q hq hq' => ?_
  simp only [length_writePod, Pod.width] at hq hq'
  exact h a ha q hq (by rw [length_writeVector]; omega)

/-- Resize a vector to the count read and then fill it: a negative count becomes a huge `size_t`,
which the vector refuses. -/
def readResized (r : Read α) : Read (List α) := do
  let count ← readPod Int32
  if count < 0 then raise .lengthError else readMany count.toNatClampNeg r

theorem readResized_writeVector : ReadsAt p (readResized r) (writeVector w as) as := by
  refine .bind (.readPod _) ?_
  rw [if_neg (not_ofNat_neg hcount), toNatClampNeg_ofNat hcount]
  refine .many fun a ha q hq hq' => ?_
  simp only [length_writePod, Pod.width] at hq hq'
  exact h a ha q hq (by rw [length_writeVector]; omega)

end

variable {size : α → ℕ}

section

variable (hr : ∀ {s s' : Cursor} {a : α}, r s = .ok (a, s') → s'.pos = s.pos + size a)
include hr

theorem pos_of_readMany (h : readMany n r s = .ok (as, s')) :
    s'.pos = s.pos + (as.map size).sum := by
  induction n generalizing s as with
  | zero =>
    cases h
    rfl
  | succ n ih =>
    obtain ⟨a, t, ha, hrest⟩ := bind_apply_eq_ok.mp h
    obtain ⟨as', t', has, ⟨⟩⟩ := bind_apply_eq_ok.mp hrest
    rw [ih has, hr ha, map_cons, sum_cons, Nat.add_assoc]

theorem pos_of_readVector (h : readVector r s = .ok (as, s')) :
    s'.pos = s.pos + 4 + (as.map size).sum := by
  obtain ⟨count, t, hcount, hrest⟩ := bind_apply_eq_ok.mp h
  rw [pos_of_readMany hr hrest, pos_of_readPod hcount]
  rfl

end

theorem length_le_flatMap {w : α → Bytes} (hw : ∀ a, 0 < (w a).length) :
    ∀ as : List α, as.length ≤ (as.flatMap w).length
  | [] => by simp
  | a :: as => by
    have := length_le_flatMap hw as
    have := hw a
    simp only [length_cons, flatMap_cons, length_append]
    omega

variable {a : α}

theorem length_le_flatMap_of_mem (h : a ∈ as) : (w a).length ≤ (as.flatMap w).length := by
  obtain ⟨l, r, rfl⟩ := append_of_mem h
  simp only [flatMap_append, flatMap_cons, length_append]
  omega

/-- The bytes of a list bound its length and the bytes of its items. -/
theorem vector_lt (hpos : ∀ a, 0 < (w a).length) (hlim : (writeVector w as).length < n) :
    as.length < n ∧ ∀ a ∈ as, (w a).length < n := by
  rw [length_writeVector] at hlim
  have hcount := length_le_flatMap hpos as
  refine ⟨by omega, fun a ha => ?_⟩
  have hle := length_le_flatMap_of_mem (w := w) ha
  omega

/-- A list of plain values is read back. -/
theorem readPods_reads [Pod α] (hpos : 0 < Pod.width α)
    (hlim : (writeVector writePod as).length < sizeLimit) :
    ReadsAt p (readVector (readPod α)) (writeVector writePod as) as :=
  readVector_writeVector (vector_lt (fun a => by simpa using hpos) hlim).1 fun a _ q _ _ =>
    .readPod a

/-- The wrapping sum of the sizes of the items. -/
def sumSizes (size : α → Int32) : List α → Int32
  | [] => 0
  | a :: as => size a + sumSizes size as

theorem sumSizes_eq {size : α → Int32} {w : α → Bytes}
    (h : ∀ a, size a = Int32.ofNat (w a).length) :
    ∀ as, sumSizes size as = Int32.ofNat (as.flatMap w).length
  | [] => rfl
  | a :: as => by
    rw [sumSizes, h a, sumSizes_eq h as, List.flatMap_cons, List.length_append, Int32.ofNat_add]

/-! ## Fallible writers and their sizes -/

def ofExcept : Except Exn α → Read α
  | .ok a => pure a
  | .error e => raise e

theorem readsAt_ofExcept {x : Except Exn α} (h : x = .ok a) : ReadsAt p (ofExcept x) [] a := by
  subst h
  exact .pure a

/-- A size of 32 bits converted to `size_t`: a negative one becomes huge. -/
def toSizeT (i : Int32) : ℕ := (i.toInt % 2 ^ 64).toNat

theorem toSizeT_ofNat (h : n < sizeLimit) : toSizeT (Int32.ofNat n) = n := by
  rw [toSizeT, Int32.toInt_ofNat_of_lt h]
  unfold sizeLimit at h
  omega

/-- Whenever the writer succeeds, so does the size function; its result is a number `n` cut to
32 bits that never exceeds the number of bytes written and equals it exactly under `good`. -/
def Sized (out : Except Exn Bytes) (size : Except Exn Int32) (good : Prop) : Prop :=
  ∀ bs, out = .ok bs → ∃ n ≤ bs.length, size = .ok (Int32.ofNat n) ∧ (n = bs.length ↔ good)

def writeThen (out out' : Except Exn Bytes) : Except Exn Bytes := do
  let bs ← out
  let bs' ← out'
  pure (bs ++ bs')

def addSize (size size' : Except Exn Int32) : Except Exn Int32 := do
  let n ← size
  let n' ← size'
  pure (n + n')

variable {out out' : Except Exn Bytes}

theorem writeThen_eq_ok : writeThen out out' = .ok bs ↔ ∃ b b', out = .ok b ∧ out' = .ok b' ∧
    bs = b ++ b' := by
  cases out <;> cases out' <;> simp [writeThen, bind, Except.bind, pure, Except.pure, eq_comm]

theorem pos_of_writeThen (hb : 0 < b.length) (h : writeThen (.ok b) out' = .ok bs) :
    0 < bs.length := by
  obtain ⟨_, _, ⟨⟩, -, rfl⟩ := writeThen_eq_ok.mp h
  rw [length_append]
  omega

theorem Sized.ok (h : n = bs.length) : Sized (.ok bs) (.ok (Int32.ofNat n)) True := by
  rintro _ ⟨⟩
  exact ⟨n, Nat.le_of_eq h, rfl, by simp [h]⟩

/-- A part that cannot fail is counted right when its lengths add up. -/
theorem Sized.of_length {n : Int32} (h : n = Int32.ofNat bs.length) :
    Sized (.ok bs) (.ok n) True := by
  subst h
  exact .ok rfl

variable {size size' : Except Exn Int32} {count : α → ℕ}

section

variable (h : Sized out size good)
include h

theorem Sized.congr (hgood : good ↔ good') : Sized out size good' := by
  intro bs hbs
  obtain ⟨n, hn, hsize, heq⟩ := h bs hbs
  exact ⟨n, hn, hsize, heq.trans hgood⟩

theorem Sized.then (h' : Sized out' size' good') :
    Sized (writeThen out out') (addSize size size') (good ∧ good') := by
  intro bs hbs
  obtain ⟨b, b', hb, hb', rfl⟩ := writeThen_eq_ok.mp hbs
  obtain ⟨n, hn, hsize, hgood⟩ := h b hb
  obtain ⟨n', hn', hsize', hgood'⟩ := h' b' hb'
  refine ⟨n + n', by rw [length_append]; omega, ?_, ?_⟩
  · rw [hsize, hsize', Int32.ofNat_add]
    rfl
  · rw [← hgood, ← hgood', length_append]
    omega

/-- A size of 32 bits is the number of bytes written if it is counted right and does not wrap. -/
theorem Sized.toInt_eq_iff (hw : out = .ok bs) :
    (∃ n, size = .ok n ∧ n.toInt = bs.length) ↔ good ∧ bs.length < sizeLimit := by
  obtain ⟨n, hn, hsize, hgood⟩ := h bs hw
  simp only [hsize, Except.ok.injEq, exists_eq_left', toInt_ofNat_eq_iff hn, hgood]

end

def writeAll (w : α → Except Exn Bytes) : List α → Except Exn Bytes
  | [] => .ok []
  | a :: as => writeThen (w a) (writeAll w as)

def sizeAll (size : α → Except Exn Int32) : List α → Except Exn Int32
  | [] => .ok 0
  | a :: as => addSize (size a) (sizeAll size as)

theorem length_flatMap_eq (h : ∀ a, (w a).length = count a) :
    (as.flatMap w).length = (as.map count).sum := by
  rw [length_flatMap, map_congr_left fun a _ => h a]

variable {w : α → Except Exn Bytes}

theorem Sized.all {size : α → Except Exn Int32} {good : α → Prop}
    (h : ∀ a, Sized (w a) (size a) (good a)) :
    ∀ as, Sized (writeAll w as) (sizeAll size as) (∀ a ∈ as, good a)
  | [] => by
    have : Sized (.ok []) (.ok (Int32.ofNat 0)) True := .ok rfl
    simpa [writeAll, sizeAll] using this
  | a :: as => by
    have := (h a).then (.all h as)
    simpa [writeAll, sizeAll] using this

/-- What `writeAll` writes, item by item. -/
theorem writeAll_eq_ok : ∀ {as : List α} {bs : Bytes}, writeAll w as = .ok bs →
      (∀ a ∈ as, ∃ b, w a = .ok b) ∧ bs = as.flatMap fun a => ((w a).toOption.getD [])
  | [], _, h => by cases h; simp
  | a :: as, bs, h => by
    obtain ⟨b, b', hb, hb', rfl⟩ := writeThen_eq_ok.mp h
    obtain ⟨hall, rfl⟩ := writeAll_eq_ok hb'
    refine ⟨fun x hx => ?_, by simp [hb, Except.toOption]⟩
    rcases mem_cons.mp hx with rfl | hx
    · exact ⟨b, hb⟩
    · exact hall x hx

theorem length_of_writeAll :
    ∀ {as : List α} {bs : Bytes}, (∀ a ∈ as, ∀ b, w a = .ok b → b.length = count a) →
      writeAll w as = .ok bs → bs.length = (as.map count).sum
  | [], _, _, hw => by cases hw; rfl
  | a :: as, _, h, hw => by
    obtain ⟨b, b', hb, hb', rfl⟩ := writeThen_eq_ok.mp hw
    have ha := h a (by simp) b hb
    have has := length_of_writeAll (fun x hx => h x (mem_cons_of_mem a hx)) hb'
    simp only [length_append, map_cons, sum_cons, ha, has]

section

variable (hw : writeAll w as = .ok bs)
include hw

/-- What is read back of the items of a list is read back of the list. -/
theorem readsAt_writeAll_map {β : Type} {r : Read β} {f : α → β}
    (h : ∀ a ∈ as, ∀ b q, w a = .ok b → p ≤ q → q + b.length ≤ p + bs.length →
      ReadsAt q r b (f a)) : ReadsAt p (readMany as.length r) bs (as.map f) := by
  obtain ⟨hall, rfl⟩ := writeAll_eq_ok hw
  refine .many_map fun a ha q hq hq' => ?_
  obtain ⟨b, hb⟩ := hall a ha
  simp only [hb, Except.toOption, Option.getD_some] at hq' ⊢
  exact h a ha b q hb hq hq'

/-- The items of a list written by `writeAll` are read back when each of them is. -/
theorem readsAt_writeAll
    (h : ∀ a ∈ as, ∀ b q, w a = .ok b → p ≤ q → q + b.length ≤ p + bs.length →
      ReadsAt q r b a) : ReadsAt p (readMany as.length r) bs as := by
  have hmap := readsAt_writeAll_map (f := id) hw h
  rwa [map_id] at hmap

/-- One faulty item makes the loop over the items stop with a fault. -/
theorem failsAt_writeAll {good : α → Prop}
    (h : ∀ a ∈ as, good a → ∀ b q, w a = .ok b → p ≤ q → q + b.length ≤ p + bs.length →
    ReadsAt q r b a)
    (h' : ∀ a ∈ as, ¬ good a → ∀ b q, w a = .ok b → p ≤ q → q + b.length ≤ p + bs.length →
      FailsAt q r b) (hbad : ∃ a ∈ as, ¬ good a) : FailsAt p (readMany as.length r) bs := by
  induction as generalizing p bs with
  | nil => simp at hbad
  | cons a as ih =>
    obtain ⟨b, b', hb, hb', rfl⟩ := writeThen_eq_ok.mp hw
    rw [length_append] at h h'
    by_cases hgood : good a
    · refine .tail (h a (by simp) hgood b p hb (Nat.le_refl p) (by omega)) (.only ?_)
      refine ih hb' (fun x hx hx' c q hc hq hq' => ?_) (fun x hx hx' c q hc hq hq' => ?_) ?_
      · exact h x (by simp [hx]) hx' c q hc (by omega) (by omega)
      · exact h' x (by simp [hx]) hx' c q hc (by omega) (by omega)
      · obtain ⟨x, hx, hxbad⟩ := hbad
        rcases mem_cons.mp hx with rfl | hx
        · exact absurd hgood hxbad
        · exact ⟨x, hx, hxbad⟩
    · exact .head (h' a (by simp) hgood b p hb (Nat.le_refl p) (by omega))

end

theorem length_le_of_writeAll (hpos : ∀ a b, w a = .ok b → 0 < b.length) :
    ∀ {as : List α} {bs : Bytes}, writeAll w as = .ok bs → as.length ≤ bs.length
  | [], _, _ => by simp
  | a :: as, _, hw => by
    obtain ⟨b, b', hb, hb', rfl⟩ := writeThen_eq_ok.mp hw
    have := hpos a b hb
    have := length_le_of_writeAll hpos hb'
    simp only [length_cons, length_append]
    omega

theorem writeAll_of_forall : ∀ {as : List α}, (∀ a ∈ as, ∃ b, w a = .ok b) →
    ∃ bs, writeAll w as = .ok bs
  | [], _ => ⟨[], rfl⟩
  | a :: as, h => by
    obtain ⟨b, hb⟩ := h a (by simp)
    obtain ⟨bs, hbs⟩ := writeAll_of_forall fun x hx => h x (mem_cons_of_mem a hx)
    exact ⟨b ++ bs, writeThen_eq_ok.mpr ⟨b, bs, hb, hbs, rfl⟩⟩

end Infinity.Parser
