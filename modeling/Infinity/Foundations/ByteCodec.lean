import Mathlib

/-! # Byte codecs: little-endian words, cursor readers and read-back rules

A writer is a function into `Bytes`; a reader is a state transformer on a `Cursor`, which holds
the unread part of a buffer and the number of bytes already read. A reader that would step over
the end of its buffer stops with `Fault.outOfBuffer`, so that an out-of-range access of the
program that is modelled is visible as a value.

* `ReadsAt p r bs a`: started at position `p` on `bs` followed by anything, the reader `r`
  returns `a` and has consumed exactly `bs`. `ReadsAt.bind`, `ReadsAt.many` compose such facts.
* `FailsAt p r bs`: on the same input the reader stops with a fault. `FailsAt.head`,
  `FailsAt.tail` say where in a sequence a fault may come from.
-/

namespace Infinity.Foundations

variable {n : ℕ}

abbrev Bytes := List UInt8

/-! ## Little-endian words -/

/-- The `w` low bytes of `n`, least significant first. -/
def leBytes : ℕ → ℕ → Bytes
  | 0, _ => []
  | w + 1, n => UInt8.ofNat n :: leBytes w (n / 256)

def leValue : Bytes → ℕ
  | [] => 0
  | b :: bs => b.toNat + 256 * leValue bs

@[simp] theorem length_leBytes (w n : ℕ) : (leBytes w n).length = w := by
  induction w generalizing n with
  | zero => rfl
  | succ w ih => simp [leBytes, ih]

theorem leValue_leBytes (w n : ℕ) : leValue (leBytes w n) = n % 256 ^ w := by
  induction w generalizing n with
  | zero => simp [leBytes, leValue, Nat.mod_one]
  | succ w ih =>
    have hb : (UInt8.ofNat n).toNat = n % 256 := by simp
    rw [leBytes, leValue, ih, hb, Nat.pow_succ', Nat.mod_mul]

theorem leValue_leBytes_of_lt {w : ℕ} (h : n < 256 ^ w) : leValue (leBytes w n) = n := by
  rw [leValue_leBytes, Nat.mod_eq_of_lt h]

/-- A plain-old-data type: its values are the codes of `width` bytes, some of which may name
no value (an enumeration). -/
class Pod (α : Type) where
  width : ℕ
  code : α → ℕ
  /-- The value a stored number stands for, if it stands for one. -/
  ofCode : ℕ → Option α
  code_lt : ∀ a, code a < 256 ^ width
  ofCode_code : ∀ a, ofCode (code a) = some a

instance : Pod UInt8 where
  width := 1
  code := UInt8.toNat
  ofCode n := some (UInt8.ofNat n)
  code_lt a := a.toNat_lt
  ofCode_code a := by simp

instance : Pod UInt16 where
  width := 2
  code := UInt16.toNat
  ofCode n := some (UInt16.ofNat n)
  code_lt a := a.toNat_lt
  ofCode_code a := by simp

instance : Pod UInt32 where
  width := 4
  code := UInt32.toNat
  ofCode n := some (UInt32.ofNat n)
  code_lt a := a.toNat_lt
  ofCode_code a := by simp

instance : Pod UInt64 where
  width := 8
  code := UInt64.toNat
  ofCode n := some (UInt64.ofNat n)
  code_lt a := a.toNat_lt
  ofCode_code a := by simp

instance : Pod Int32 where
  width := 4
  code a := a.toUInt32.toNat
  ofCode n := some (UInt32.ofNat n).toInt32
  code_lt a := a.toUInt32.toNat_lt
  ofCode_code a := by simp

instance : Pod Int64 where
  width := 8
  code a := a.toUInt64.toNat
  ofCode n := some (UInt64.ofNat n).toInt64
  code_lt a := a.toUInt64.toNat_lt
  ofCode_code a := by simp

instance : Pod Bool where
  width := 1
  code b := b.toNat
  ofCode n := some (n != 0)
  code_lt b := by cases b <;> decide
  ofCode_code b := by cases b <;> rfl

/-- An enumeration whose codes are the indices of a list of its values. -/
@[reducible] def Pod.ofList {α : Type} [DecidableEq α] (w : ℕ) (all : List α) (hmem : ∀ a, a ∈ all)
    (hlen : all.length ≤ 256 ^ w) : Pod α where
  width := w
  code a := all.idxOf a
  ofCode n := all[n]?
  code_lt a := Nat.lt_of_lt_of_le (List.idxOf_lt_length_of_mem (hmem a)) hlen
  ofCode_code a := List.getElem?_idxOf (hmem a)

/-! ## Cursors and readers -/

/-- A place in a sequence of bytes. -/
structure Cursor where
  pos : ℕ
  rest : Bytes
  deriving DecidableEq, Repr

/-- Why a reader stops: it ran over its buffer, it met a code that names no value, or the
program raised an error of its own. -/
inductive Fault (ε : Type) where
  | outOfBuffer
  | badCode
  | raised (e : ε)
  deriving DecidableEq, Repr

/-- A reader that may raise errors `ε`. -/
abbrev Reader (ε α : Type) := StateT Cursor (Except (Fault ε)) α

variable {ε α β γ : Type}

def raise (e : ε) : Reader ε α := fun _ => .error (.raised e)

def tell : Reader ε ℕ := fun s => .ok (s.pos, s)

/-- Take `n` bytes. -/
def readBytes (n : ℕ) : Reader ε Bytes := fun s =>
  if n ≤ s.rest.length then .ok (s.rest.take n, ⟨s.pos + n, s.rest.drop n⟩)
  else .error .outOfBuffer

def writePod [Pod α] (a : α) : Bytes := leBytes (Pod.width α) (Pod.code a)

def readPod (α : Type) [Pod α] : Reader ε α := do
  let bs ← readBytes (Pod.width α)
  match Pod.ofCode (leValue bs) with
  | some a => pure a
  | none => fun _ => .error .badCode

/-- Run a reader `n` times and collect the values. -/
def readMany : ℕ → Reader ε α → Reader ε (List α)
  | 0, _ => pure []
  | n + 1, r => do
    let a ← r
    let as ← readMany n r
    pure (a :: as)

@[simp] theorem length_writePod [Pod α] (a : α) : (writePod a).length = Pod.width α := by
  simp [writePod]

/-! ## Read-back rules -/

/-- Started at `p` on `bs` followed by anything, `r` returns `a` and consumes exactly `bs`. -/
def ReadsAt (p : ℕ) (r : Reader ε α) (bs : Bytes) (a : α) : Prop :=
  ∀ rest, r ⟨p, bs ++ rest⟩ = .ok (a, ⟨p + bs.length, rest⟩)

/-- Started at `p` on `bs` followed by anything, `r` stops with a fault. -/
def FailsAt (p : ℕ) (r : Reader ε α) (bs : Bytes) : Prop :=
  ∀ rest, ∃ e, r ⟨p, bs ++ rest⟩ = .error e

variable {s s' : Cursor} {r : Reader ε α} {f : α → Reader ε β} {a : α}

theorem bind_apply_ok (h : r s = .ok (a, s')) : (r >>= f) s = f a s' := by
  change (r s >>= fun x => f x.1 x.2) = _
  rw [h]
  rfl

theorem bind_apply_error {e : Fault ε} (h : r s = .error e) : (r >>= f) s = .error e := by
  change (r s >>= fun x => f x.1 x.2) = _
  rw [h]
  rfl

/-- A sequence returns a value exactly if its two parts do. -/
theorem bind_apply_eq_ok {b : β} : (r >>= f) s = .ok (b, s') ↔ ∃ a t, r s = .ok (a, t) ∧
    f a t = .ok (b, s') := by
  cases h : r s with
  | error e =>
    rw [bind_apply_error h]
    exact ⟨nofun, by rintro ⟨_, _, ⟨⟩, -⟩⟩
  | ok p =>
    rw [bind_apply_ok h]
    constructor
    · exact fun hf => ⟨p.1, p.2, rfl, hf⟩
    · rintro ⟨_, _, ⟨⟩, hf⟩
      exact hf

theorem pos_of_readBytes {bs : Bytes}
    (h : readBytes (ε := ε) n s = .ok (bs, s')) : s'.pos = s.pos + n ∧ bs.length = n := by
  unfold readBytes at h
  split at h
  next hn =>
    cases h
    exact ⟨rfl, List.length_take_of_le hn⟩
  · cases h

theorem pos_of_readPod [Pod α] (h : readPod (ε := ε) α s = .ok (a, s')) :
    s'.pos = s.pos + Pod.width α := by
  obtain ⟨bs, t, hbs, hrest⟩ := bind_apply_eq_ok.mp h
  cases hcode : (Pod.ofCode (leValue bs) : Option α) with
  | some b =>
    rw [hcode] at hrest
    cases hrest
    exact (pos_of_readBytes hbs).1
  | none =>
    rw [hcode] at hrest
    cases hrest

/-- Reading a plain value all of whose codes name a value. -/
theorem readPod_apply [Pod α] {f : ℕ → α} (hf : ∀ n, Pod.ofCode n = some (f n)) (p : ℕ)
    (bs : Bytes) : readPod (ε := ε) α ⟨p, bs⟩ = if Pod.width α ≤ bs.length then
      .ok (f (leValue (bs.take (Pod.width α))), ⟨p + Pod.width α, bs.drop (Pod.width α)⟩)
    else .error .outOfBuffer := by
  by_cases h : Pod.width α ≤ bs.length
  · rw [if_pos h, readPod, bind_apply_ok (if_pos h), hf]
    rfl
  · rw [if_neg h, readPod, bind_apply_error (if_neg h)]

namespace ReadsAt

variable {p : ℕ} {bs bs' : Bytes} {b : β}

theorem pure (a : α) : ReadsAt (ε := ε) p (Pure.pure a) [] a := fun _ => rfl

theorem bind (h : ReadsAt p r bs a) (h' : ReadsAt (p + bs.length) (f a) bs' b) :
    ReadsAt p (r >>= f) (bs ++ bs') b := by
  intro rest
  rw [List.append_assoc, bind_apply_ok (h _), h' rest, List.length_append, Nat.add_assoc]

/-- The last read of a sequence: what follows it consumes nothing. -/
theorem last (h : ReadsAt p r bs a) (h' : ReadsAt (p + bs.length) (f a) [] b) :
    ReadsAt p (r >>= f) bs b := by
  simpa using h.bind h'

/-- A read that consumes nothing. -/
theorem skip (h : ReadsAt p r [] a) (h' : ReadsAt p (f a) bs b) : ReadsAt p (r >>= f) bs b := by
  simpa using h.bind h'

theorem tell_bind {f : ℕ → Reader ε β} (h : ReadsAt p (f p) bs b) : ReadsAt p (tell >>= f) bs b :=
  fun rest => h rest

theorem readBytes (h : bs.length = n) : ReadsAt (ε := ε) p (Foundations.readBytes n) bs bs := by
  intro rest
  subst h
  simp [Foundations.readBytes]

theorem readPod [Pod α] (a : α) : ReadsAt (ε := ε) p (Foundations.readPod α) (writePod a) a := by
  refine (readBytes (length_writePod a)).last ?_
  rw [writePod, leValue_leBytes_of_lt (Pod.code_lt a), Pod.ofCode_code]
  exact pure a

theorem pod [Pod α] (h : ReadsAt (p + (writePod a).length) (f a) bs b) :
    ReadsAt p (Foundations.readPod α >>= f) (writePod a ++ bs) b :=
  (readPod a).bind h

/-- A loop over the items of a list reads back what its body reads back of each item, at every
position the loop can reach. -/
theorem many_map {w : γ → Bytes} {f : γ → α} : ∀ {cs : List γ} {p : ℕ},
    (∀ c ∈ cs, ∀ q, p ≤ q → q + (w c).length ≤ p + (cs.flatMap w).length →
    ReadsAt q r (w c) (f c)) → ReadsAt p (readMany cs.length r) (cs.flatMap w) (cs.map f)
  | [], _, _ => pure []
  | c :: cs, p, h => by
    have hlen : ((c :: cs).flatMap w).length = (w c).length + (cs.flatMap w).length := by simp
    have hhead : ReadsAt p r (w c) (f c) := h c (by simp) p (Nat.le_refl p) (by omega)
    have htail : ReadsAt (p + (w c).length) (readMany cs.length r) (cs.flatMap w) (cs.map f) :=
      many_map fun c' hc' q hq hq' => h c' (by simp [hc']) q (by omega) (by omega)
    exact hhead.bind (htail.last (pure _))

theorem many {w : α → Bytes} {as : List α} {p : ℕ}
    (h : ∀ a ∈ as, ∀ q, p ≤ q → q + (w a).length ≤ p + (as.flatMap w).length →
    ReadsAt q r (w a) a) : ReadsAt p (readMany as.length r) (as.flatMap w) as := by
  have hmap := many_map (f := id) h
  rwa [List.map_id] at hmap

end ReadsAt

namespace FailsAt

variable {p : ℕ} {bs bs' : Bytes} {b : β}

theorem raise (e : ε) : FailsAt (α := α) p (Foundations.raise e) bs := fun _ => ⟨_, rfl⟩

theorem head (h : FailsAt p r bs) : FailsAt p (r >>= f) (bs ++ bs') := by
  intro rest
  obtain ⟨e, he⟩ := h (bs' ++ rest)
  exact ⟨e, by rw [List.append_assoc, bind_apply_error he]⟩

theorem only (h : FailsAt p r bs) : FailsAt p (r >>= f) bs := by
  have h' : FailsAt p (r >>= f) (bs ++ []) := h.head
  simpa using h'

theorem tail (h : ReadsAt p r bs a) (h' : FailsAt (p + bs.length) (f a) bs') :
    FailsAt p (r >>= f) (bs ++ bs') := by
  intro rest
  obtain ⟨e, he⟩ := h' rest
  exact ⟨e, by rw [List.append_assoc, bind_apply_ok (h _), he]⟩

theorem skip (h : ReadsAt p r [] a) (h' : FailsAt p (f a) bs) : FailsAt p (r >>= f) bs := by
  simpa using tail h h'

theorem tell_bind {f : ℕ → Reader ε β} (h : FailsAt p (f p) bs) : FailsAt p (tell >>= f) bs :=
  fun rest => h rest

end FailsAt

end Infinity.Foundations
