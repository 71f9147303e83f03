import Infinity.Foundations.Transition

/-! # The ring of inverter results

Inverting tasks finish in any order; `Ring` puts their results back in order. An element with
sequence number `off` lands in slot `off & cap_mask_`, and `GetBatch` hands out the elements that
follow each other without a gap. `Put` holds the mutex except while it waits for room, and so does
`GetBatch`, so that a run is a sequence of calls of `Put` that store or start to wait, of waits that
end, and of calls of `GetBatch`. `MemoryIndexer::CommitSync` reads two rings; this is about each of
them by itself.

* `Inv`: what holds in every reachable state: the slots of the window hold the elements stored.
* `Inv.concat_batches`: the batches in the order of their sequence numbers are the elements in
  order.
* `batches_in_order`: together with what is left after the last `Put`.
-/

namespace Infinity.Inverting

open Foundations List

variable {T : Type} [Inhabited T]

/-! ## The ring -/

/-- `Ring`. The default element is the in-band mark `zero_` of an empty slot. `1 << cap_shift` is an
`int`, so `cap_shift` is below 31. -/
structure Ring (T : Type) where
  ringBuf : List T
  capShift : ℕ
  offGround : ℕ
  offCeiling : ℕ
  offFilled : ℕ
  seqGet : ℕ

namespace Ring

/-- `Ring::Ring`. -/
def make (capShift : ℕ) : Ring T := ⟨List.replicate (2 ^ capShift) default, capShift, 0, 0, 0, 0⟩

/-- `cap_mask_`. -/
def capMask (r : Ring T) : ℕ := 2 ^ r.capShift - 1

/-- `ring_buf_[off & cap_mask_]`. -/
def slot (r : Ring T) (off : ℕ) : T := r.ringBuf.getD (off &&& r.capMask) default

/-- `ring_buf_[off & cap_mask_] = elem`. -/
def setSlot (r : Ring T) (off : ℕ) (elem : T) : Ring T :=
  { r with ringBuf := r.ringBuf.set (off &&& r.capMask) elem }

/-- The condition that `Put` waits for. -/
def hasRoom (r : Ring T) (off : ℕ) : Bool := off < r.offGround + 2 ^ r.capShift

/-- The loop of `Put` that moves `off_filled_` over the elements stored, at most `n` rounds. -/
def fillLoop [DecidableEq T] (r : Ring T) : ℕ → ℕ → ℕ
  | 0, filled => filled
  | n + 1, filled =>
    if filled < r.offCeiling ∧ r.slot filled ≠ default then fillLoop r n (filled + 1) else filled

/-- `Put` behind the wait. -/
def store [DecidableEq T] (r : Ring T) (off : ℕ) (elem : T) : Ring T :=
  let r := r.setSlot off elem
  let r := { r with offCeiling := max r.offCeiling (off + 1) }
  if off = r.offFilled then { r with offFilled := r.fillLoop (r.offCeiling - (off + 1)) (off + 1) }
    else r

/-- The loop of `GetBatch` that empties slots. -/
def clearSlots (r : Ring T) (offs : List ℕ) : Ring T :=
  offs.foldl (fun r off => r.setSlot off default) r

/-- `GetBatch`: the batch, the sequence number returned, and the ring after it. A wait for elements
that times out answers as an empty ring does. -/
def getBatch (r : Ring T) : List T × ℕ × Ring T :=
  if r.offGround = r.offFilled then ([], 0, r)
  else
    let offs := List.range' r.offGround (r.offFilled - r.offGround)
    (offs.map r.slot, r.seqGet,
      { r.clearSlots offs with offGround := r.offFilled, seqGet := r.seqGet + 1 })

end Ring

/-! ## Runs -/

/-- A ring with who waits and what was done. -/
structure State (T : Type) where
  ring : Ring T
  waiting : List ℕ
  stored : List ℕ
  batches : List (ℕ × List T)

/-- What a thread does while it holds the mutex. -/
inductive Action where
  | put (off : ℕ)
  | wake (off : ℕ)
  | getBatch

/-- One action; `elem off` is the element with sequence number `off`. Each sequence number is put
once. A `Put` whose element would come too late fails its `assert`. -/
def step [DecidableEq T] (elem : ℕ → T) (s : State T) : Action → Option (State T)
  | .put off =>
    if off ∈ s.waiting ∨ off ∈ s.stored ∨ off < s.ring.offFilled then none
    else if s.ring.hasRoom off then
      some { s with ring := s.ring.store off (elem off), stored := off :: s.stored }
    else some { s with waiting := off :: s.waiting }
  | .wake off =>
    if off ∈ s.waiting ∧ s.ring.hasRoom off then
      some { s with
        ring := s.ring.store off (elem off), waiting := s.waiting.erase off, stored :=
          off :: s.stored }
    else none
  | .getBatch =>
    let (batch, seq, ring) := s.ring.getBatch
    some { s with ring := ring, batches := s.batches ++ [(seq, batch)] }

/-- The runs of a ring with room for `2 ^ capShift` elements. -/
def system [DecidableEq T] (capShift : ℕ) (elem : ℕ → T) : TransitionSystem (State T) Action where
  Initial s := s = ⟨.make capShift, [], [], []⟩
  step := step elem

/-! ## Slots -/

namespace Ring

variable {r : Ring T} {off off' g n : ℕ} {elem : T}

omit [Inhabited T] in
theorem and_capMask : off &&& r.capMask = off % 2 ^ r.capShift :=
  Nat.and_two_pow_sub_one_eq_mod off r.capShift

theorem slot_add : r.slot (off + 2 ^ r.capShift) = r.slot off := by
  unfold slot
  rw [and_capMask, and_capMask, Nat.add_mod_right]

theorem slot_setSlot_self (hlen : r.ringBuf.length = 2 ^ r.capShift) :
    (r.setSlot off elem).slot off = elem := by
  have hlt : off &&& r.capMask < r.ringBuf.length := by
    rw [and_capMask, hlen]
    exact Nat.mod_lt _ (Nat.two_pow_pos _)
  show (r.ringBuf.set (off &&& r.capMask) elem).getD (off &&& r.capMask) default = elem
  rw [getD_eq_getElem?_getD, getElem?_set_self hlt, Option.getD_some]

theorem slot_setSlot_ne (hoff : g ≤ off) (hoff' : off < g + 2 ^ r.capShift) (hle : g ≤ off')
    (hlt : off' < g + 2 ^ r.capShift) (hne : off' ≠ off) :
    (r.setSlot off elem).slot off' = r.slot off' := by
  have hmod : off &&& r.capMask ≠ off' &&& r.capMask := by
    rw [and_capMask, and_capMask]
    -- two offsets of one window share a slot only if they are the same
    exact fun h => hne (Nat.mod_injOn_Ico g _ (Finset.mem_coe.mpr (Finset.mem_Ico.mpr ⟨hle, hlt⟩))
      (Finset.mem_coe.mpr (Finset.mem_Ico.mpr ⟨hoff, hoff'⟩)) h.symm)
  show (r.ringBuf.set (off &&& r.capMask) elem).getD (off' &&& r.capMask) default = _
  rw [getD_eq_getElem?_getD, getElem?_set_ne hmod, ← getD_eq_getElem?_getD]
  rfl

theorem fillLoop_spec [DecidableEq T] (hn : n = r.offCeiling - g) (hg : g ≤ r.offCeiling) :
    g ≤ r.fillLoop n g ∧ r.fillLoop n g ≤ r.offCeiling ∧
      (∀ off, g ≤ off → off < r.fillLoop n g → r.slot off ≠ default) ∧
      (r.fillLoop n g = r.offCeiling ∨ r.slot (r.fillLoop n g) = default) := by
  induction n generalizing g with
  | zero =>
    have heq : g = r.offCeiling := by omega
    exact ⟨le_rfl, hg, fun off h h' => absurd h' (not_lt.mpr h), .inl heq⟩
  | succ n ih =>
    rw [fillLoop]
    split
    next h =>
      obtain ⟨hle, hle', hslots, hend⟩ := ih (g := g + 1) (by omega) h.1
      refine ⟨by omega, hle', fun off hoff hlt => ?_, hend⟩
      rcases Nat.eq_or_lt_of_le hoff with rfl | hoff
      · exact h.2
      · exact hslots off hoff hlt
    next h =>
      refine ⟨le_rfl, hg, fun off h h' => absurd h' (not_lt.mpr h), .inr ?_⟩
      by_contra hne
      exact h ⟨by omega, hne⟩

theorem clearSlots_eq (offs : List ℕ) :
    ∃ buf, buf.length = r.ringBuf.length ∧ r.clearSlots offs = { r with ringBuf := buf } := by
  induction offs generalizing r with
  | nil => exact ⟨r.ringBuf, rfl, rfl⟩
  | cons off offs ih =>
    obtain ⟨buf, hlen, heq⟩ := ih (r := r.setSlot off default)
    exact ⟨buf, hlen.trans (length_set ..), heq⟩

/-- Emptying some slots of a window empties these and no others. -/
theorem slot_clearSlots {offs : List ℕ} (hlen : r.ringBuf.length = 2 ^ r.capShift)
    (hoffs : ∀ o ∈ offs, g ≤ o ∧ o < g + 2 ^ r.capShift) (hle : g ≤ off)
    (hlt : off < g + 2 ^ r.capShift) :
    (r.clearSlots offs).slot off = if off ∈ offs then default else r.slot off := by
  induction offs generalizing r with
  | nil => rfl
  | cons o offs ih =>
    obtain ⟨ho, ho'⟩ := hoffs o mem_cons_self
    have hrest := ih (r := r.setSlot o default) ((length_set ..).trans hlen)
      (fun o ho => hoffs o (mem_cons_of_mem _ ho)) hlt
    show ((r.setSlot o default).clearSlots offs).slot off = _
    rw [hrest]
    by_cases hmem : off ∈ offs
    · rw [if_pos hmem, if_pos (mem_cons_of_mem _ hmem)]
    · rw [if_neg hmem]
      by_cases heq : off = o
      · subst heq
        rw [slot_setSlot_self hlen, if_pos mem_cons_self]
      · rw [slot_setSlot_ne ho ho' hle hlt heq, if_neg (by simp [heq, hmem])]

end Ring

/-! ## The invariant -/

/-- What holds in every reachable state. -/
structure Inv (elem : ℕ → T) (s : State T) : Prop where
  length_eq : s.ring.ringBuf.length = 2 ^ s.ring.capShift
  ground_le : s.ring.offGround ≤ s.ring.offFilled
  filled_le : s.ring.offFilled ≤ s.ring.offCeiling
  ceiling_le : s.ring.offCeiling ≤ s.ring.offGround + 2 ^ s.ring.capShift
  stored_of_lt : ∀ off < s.ring.offFilled, off ∈ s.stored
  filled_not_stored : s.ring.offFilled ∉ s.stored
  lt_ceiling : ∀ off ∈ s.stored, off < s.ring.offCeiling
  ceiling_stored : s.ring.offCeiling = 0 ∨ s.ring.offCeiling - 1 ∈ s.stored
  slot_eq : ∀ off, s.ring.offGround ≤ off → off < s.ring.offGround + 2 ^ s.ring.capShift →
    s.ring.slot off = if off ∈ s.stored then elem off else default
  waiting_nodup : s.waiting.Nodup
  waiting_disjoint : ∀ off ∈ s.waiting, off ∉ s.stored
  seqs_eq : (s.batches.filter fun b => b.2 ≠ []).map Prod.fst = List.range s.ring.seqGet
  elems_eq : s.batches.flatMap Prod.snd = (List.range s.ring.offGround).map elem

variable {elem : ℕ → T} {s s' : State T} {capShift off : ℕ}

theorem Inv.make (hs : s = ⟨.make capShift, [], [], []⟩) : Inv elem s := by
  subst hs
  refine ⟨length_replicate, le_rfl, le_rfl, Nat.zero_le _, nofun, nofun, nofun, .inl rfl, ?_,
    nodup_nil, nofun, rfl, rfl⟩
  intro off _ _
  show (replicate _ default).getD _ default = default
  rw [getD_eq_getElem?_getD, getElem?_replicate]
  split <;> rfl

section

variable (h : Inv elem s)
include h

/-- The offset of a `Put` that has not stored yet is not below the filled part. -/
theorem Inv.filled_le_of_not_stored (hoff : off ∉ s.stored) : s.ring.offFilled ≤ off :=
  le_of_not_gt fun hlt => hoff (h.stored_of_lt off hlt)

/-- **Storing an element keeps the invariant**, and the slot was empty. -/
theorem Inv.store [DecidableEq T] (helem : ∀ off, elem off ≠ default) (hoff : off ∉ s.stored)
    (hroom : s.ring.hasRoom off) {waiting : List ℕ} (hnodup : waiting.Nodup)
    (hdisjoint : ∀ o ∈ waiting, o ∉ off :: s.stored) :
    Inv elem { s with
      ring := s.ring.store off (elem off), waiting := waiting, stored := off :: s.stored } := by
  have hfilled := h.filled_le_of_not_stored hoff
  have hground := h.ground_le
  have hceiling := h.ceiling_le
  have hlt : off < s.ring.offGround + 2 ^ s.ring.capShift := of_decide_eq_true hroom
  -- the ring before `off_filled_` moves
  set r : Ring T :=
    { s.ring.setSlot off (elem off) with offCeiling := max s.ring.offCeiling (off + 1) } with hr
  have hslot : ∀ o, s.ring.offGround ≤ o → o < s.ring.offGround + 2 ^ s.ring.capShift →
      r.slot o = if o ∈ off :: s.stored then elem o else default := by
    intro o ho ho'
    by_cases heq : o = off
    · subst heq
      rw [if_pos mem_cons_self]
      exact Ring.slot_setSlot_self h.length_eq
    · have hslot : r.slot o = s.ring.slot o :=
        Ring.slot_setSlot_ne (hground.trans hfilled) hlt ho ho' heq
      rw [hslot, h.slot_eq o ho ho']
      simp [heq]
  have hmax : max s.ring.offCeiling (off + 1) = r.offCeiling := rfl
  have hstored : ∀ o ∈ off :: s.stored, o < r.offCeiling := by
    intro o ho
    rcases mem_cons.mp ho with rfl | ho
    · omega
    · have := h.lt_ceiling o ho
      omega
  have hlast : r.offCeiling = 0 ∨ r.offCeiling - 1 ∈ off :: s.stored := by
    rcases le_total s.ring.offCeiling (off + 1) with hcase | hcase
    · have hceil : r.offCeiling = off + 1 := by omega
      exact .inr (by rw [hceil]; exact mem_cons_self)
    · have hceil : r.offCeiling = s.ring.offCeiling := by omega
      rcases h.ceiling_stored with hzero | hmem
      · omega
      · exact .inr (by rw [hceil]; exact mem_cons_of_mem _ hmem)
  have hlen : r.ringBuf.length = 2 ^ r.capShift := (length_set ..).trans h.length_eq
  by_cases heq : off = s.ring.offFilled
  · have hstore : s.ring.store off (elem off) =
        { r with offFilled := r.fillLoop (r.offCeiling - (off + 1)) (off + 1) } := if_pos heq
    obtain ⟨hfill, hfill', hslots, hend⟩ :=
      Ring.fillLoop_spec (r := r) (g := off + 1) rfl (by omega)
    set filled := r.fillLoop (r.offCeiling - (off + 1)) (off + 1) with hfilledEq
    rw [hstore]
    refine ⟨hlen, ?_, hfill', ?_, ?_, ?_, hstored, hlast, hslot, hnodup, hdisjoint, h.seqs_eq,
      h.elems_eq⟩
    · show s.ring.offGround ≤ filled
      omega
    · show r.offCeiling ≤ s.ring.offGround + 2 ^ s.ring.capShift
      omega
    · intro o ho
      replace ho : o < filled := ho
      rcases lt_trichotomy o off with hcase | rfl | hcase
      · exact mem_cons_of_mem _ (h.stored_of_lt o (by omega))
      · exact mem_cons_self
      · -- an element that the loop passed is stored, since its slot is not empty
        have hne := hslots o hcase ho
        by_contra hmem
        rw [hslot o (by omega) (by omega), if_neg hmem] at hne
        exact hne rfl
    · intro hmem
      rcases hend with hend | hend
      · have := hstored filled hmem
        omega
      · have hlt' := hstored filled hmem
        rw [hslot filled (by omega) (by omega), if_pos hmem] at hend
        exact helem filled hend
  · have hstore : s.ring.store off (elem off) = r := if_neg heq
    rw [hstore]
    refine ⟨hlen, hground, ?_, ?_, ?_, ?_, hstored, hlast, hslot, hnodup, hdisjoint, h.seqs_eq,
      h.elems_eq⟩
    · show s.ring.offFilled ≤ r.offCeiling
      omega
    · show r.offCeiling ≤ s.ring.offGround + 2 ^ s.ring.capShift
      omega
    · exact fun o ho => mem_cons_of_mem _ (h.stored_of_lt o ho)
    · intro hmem
      rcases mem_cons.mp hmem with hcase | hcase
      · exact heq hcase.symm
      · exact h.filled_not_stored hcase

/-- What `GetBatch` takes from a ring that is not empty. -/
theorem Inv.batch_eq :
    (range' s.ring.offGround (s.ring.offFilled - s.ring.offGround)).map s.ring.slot =
      (range' s.ring.offGround (s.ring.offFilled - s.ring.offGround)).map elem := by
  apply map_congr_left
  intro off hoff
  have hfilled := h.filled_le
  have hceiling := h.ceiling_le
  rw [mem_range'_1] at hoff
  rw [h.slot_eq off hoff.1 (by omega), if_pos (h.stored_of_lt off (by omega))]

/-- **A batch keeps the invariant.** -/
theorem Inv.getBatch : Inv elem { s with
    ring := s.ring.getBatch.2.2, batches :=
    s.batches ++ [(s.ring.getBatch.2.1, s.ring.getBatch.1)] } := by
  have hground := h.ground_le
  have hfilled := h.filled_le
  have hceiling := h.ceiling_le
  by_cases hempty : s.ring.offGround = s.ring.offFilled
  · have hbatch : s.ring.getBatch = ([], 0, s.ring) := if_pos hempty
    rw [hbatch]
    exact { h with
      seqs_eq := by simpa [filter_append] using h.seqs_eq
      elems_eq := by simpa [flatMap_append] using h.elems_eq }
  · set offs := range' s.ring.offGround (s.ring.offFilled - s.ring.offGround) with hoffs
    have hbatch : s.ring.getBatch = (offs.map s.ring.slot, s.ring.seqGet,
        { s.ring.clearSlots
        offs with offGround := s.ring.offFilled, seqGet := s.ring.seqGet + 1 }) := if_neg hempty
    obtain ⟨buf, hlen, hclear⟩ := s.ring.clearSlots_eq offs
    have hmem : ∀ o, o ∈ offs ↔ s.ring.offGround ≤ o ∧ o < s.ring.offFilled := by
      intro o
      rw [hoffs, mem_range'_1]
      omega
    have hne : offs.map s.ring.slot ≠ [] := by
      intro hnil
      have := (hmem s.ring.offGround).mpr ⟨le_rfl, by omega⟩
      rw [map_eq_nil_iff.mp hnil] at this
      exact not_mem_nil this
    have hwindow : ∀ o ∈ offs, s.ring.offGround ≤ o ∧
        o < s.ring.offGround + 2 ^ s.ring.capShift := by
      intro o ho
      have := (hmem o).mp ho
      omega
    have hslot : ∀ o, s.ring.offGround ≤ o → o < s.ring.offGround + 2 ^ s.ring.capShift →
        ({ s.ring with ringBuf := buf } : Ring T).slot o =
        if o ∈ offs then default else s.ring.slot o :=
      fun o ho ho' => hclear ▸ Ring.slot_clearSlots h.length_eq hwindow ho ho'
    rw [hbatch, hclear]
    refine { h with
      length_eq := hlen.trans h.length_eq, ground_le := le_rfl
      ceiling_le := ?_, slot_eq := ?_, seqs_eq := ?_, elems_eq := ?_ }
    · show s.ring.offCeiling ≤ s.ring.offFilled + 2 ^ s.ring.capShift
      omega
    · intro off hle hlt
      replace hle : s.ring.offFilled ≤ off := hle
      replace hlt : off < s.ring.offFilled + 2 ^ s.ring.capShift := hlt
      show ({ s.ring with ringBuf := buf } : Ring T).slot off =
        if off ∈ s.stored then elem off else default
      by_cases hcase : off < s.ring.offGround + 2 ^ s.ring.capShift
      · have hnot : off ∉ offs := fun ho => by
          have := (hmem off).mp ho
          omega
        rw [hslot off (by omega) hcase, if_neg hnot]
        exact h.slot_eq off (by omega) hcase
      · -- the slot is one that was just emptied
        have hback : off = off - 2 ^ s.ring.capShift + 2 ^ s.ring.capShift := by omega
        have hnot : off ∉ s.stored := fun ho => by
          have := h.lt_ceiling off ho
          omega
        rw [if_neg hnot, hback]
        exact (Ring.slot_add).trans ((hslot _ (by omega) (by omega)).trans
          (if_pos ((hmem _).mpr ⟨by omega, by omega⟩)))
    · show ((s.batches ++ [(s.ring.seqGet, offs.map s.ring.slot)]).filter fun b => b.2 ≠ []).map
        Prod.fst = range (s.ring.seqGet + 1)
      rw [filter_append, map_append, h.seqs_eq, range_succ]
      simp [hne]
    · show (s.batches ++ [(s.ring.seqGet, offs.map s.ring.slot)]).flatMap Prod.snd =
        (range s.ring.offFilled).map elem
      have hrange : range s.ring.offFilled = range s.ring.offGround ++ offs := by
        have happend : range' 0 s.ring.offGround ++
            range' (0 + s.ring.offGround) (s.ring.offFilled - s.ring.offGround) = _ :=
            range'_append_1
        rw [zero_add, Nat.add_sub_cancel' hground] at happend
        rw [range_eq_range', range_eq_range', hoffs, happend]
      rw [flatMap_append, h.elems_eq, flatMap_singleton, h.batch_eq, hrange, map_append]

end

/-- **The invariant holds in every reachable state.** -/
theorem Inv.of_reachable [DecidableEq T] (helem : ∀ off, elem off ≠ default)
    (h : (system capShift elem).Reachable s) : Inv elem s := by
  refine TransitionSystem.Reachable.invariant (fun s hs => .make hs) (fun s a s' hs hstep => ?_) h
  cases a with
  | put off =>
    simp only [system, step] at hstep
    split at hstep
    · cases hstep
    next hnew =>
      simp only [not_or] at hnew
      split at hstep
      next hroom =>
        cases hstep
        refine hs.store helem hnew.2.1 hroom hs.waiting_nodup fun o ho => ?_
        rw [mem_cons, not_or]
        exact ⟨fun heq => hnew.1 (heq ▸ ho), hs.waiting_disjoint o ho⟩
      next hfull =>
        cases hstep
        exact { hs with
          waiting_nodup := nodup_cons.mpr ⟨hnew.1, hs.waiting_nodup⟩
          waiting_disjoint := forall_mem_cons.mpr ⟨hnew.2.1, hs.waiting_disjoint⟩ }
  | wake off =>
    simp only [system, step] at hstep
    split at hstep
    next hwake =>
      cases hstep
      refine hs.store helem (hs.waiting_disjoint off hwake.1) hwake.2 (hs.waiting_nodup.erase off)
        fun o ho => ?_
      rw [hs.waiting_nodup.mem_erase_iff] at ho
      rw [mem_cons, not_or]
      exact ⟨ho.1, hs.waiting_disjoint o ho.2⟩
    · cases hstep
  | getBatch =>
    cases hstep
    exact hs.getBatch

/-! ## Batches in order -/

/-- The batches in the order of the sequence numbers that `GetBatch` returned. An empty batch comes
with the number 0, as the first one does. -/
def InOrder (ordered batches : List (ℕ × List T)) : Prop :=
  ordered.Perm batches ∧ ordered.Pairwise fun b c => b.1 ≤ c.1

omit [Inhabited T] in
theorem flatMap_filter_ne_nil (batches : List (ℕ × List T)) :
    (batches.filter fun b => !b.2.isEmpty).flatMap Prod.snd = batches.flatMap Prod.snd := by
  rw [flatMap_def, flatMap_def, ← flatten_filter_not_isEmpty (L := batches.map Prod.snd),
    filter_map]
  rfl

/-- **The batches in order are the elements in order.** -/
theorem Inv.concat_batches (h : Inv elem s) {ordered : List (ℕ × List T)}
    (hordered : InOrder ordered s.batches) :
    ordered.flatMap Prod.snd = (range s.ring.offGround).map elem := by
  have hseqs : (s.batches.filter fun b => !b.2.isEmpty).map Prod.fst = range s.ring.seqGet := by
    rw [← h.seqs_eq]
    congr 2
    funext b
    cases b.2 <;> rfl
  have hperm : (ordered.filter fun b => !b.2.isEmpty).Perm (s.batches.filter fun b =>
      !b.2.isEmpty) :=
    hordered.1.filter _
  -- the numbers of batches that are not empty are distinct, so that there is only one order
  have hstrict : (s.batches.filter fun b => !b.2.isEmpty).Pairwise fun b c => b.1 < c.1 := by
    rw [← pairwise_map (f := Prod.fst) (R := (· < ·)), hseqs]
    exact pairwise_lt_range
  have hnodup : ((s.batches.filter fun b => !b.2.isEmpty).map Prod.fst).Nodup := by
    rw [hseqs]
    exact nodup_range
  have hinj : ∀ b c, b ∈ ordered.filter (fun b => !b.2.isEmpty) →
      c ∈ s.batches.filter (fun b => !b.2.isEmpty) →
      b.1 ≤ c.1 → c.1 ≤ b.1 → b = c := fun b c hb hc hbc hcb =>
    inj_on_of_nodup_map hnodup (hperm.subset hb) hc (hbc.antisymm hcb)
  have heq : (ordered.filter fun b => !b.2.isEmpty) = s.batches.filter fun b => !b.2.isEmpty :=
    hperm.eq_of_pairwise hinj (hordered.2.filter _) (hstrict.imp fun hlt => hlt.le)
  rw [← flatMap_filter_ne_nil, heq, flatMap_filter_ne_nil, h.elems_eq]

/-- A slot of a window for every offset. -/
theorem exists_window (g i : ℕ) {N : ℕ} (hN : 0 < N) : ∃ o, g ≤ o ∧ o < g + N ∧ o % N = i % N := by
  have hle : g ≤ N * g := Nat.le_mul_of_pos_left g hN
  refine ⟨g + (i + N * g - g) % N, Nat.le_add_right _ _, Nat.add_lt_add_left (Nat.mod_lt _ hN) g,
    ?_⟩
  have hsum : g + (i + N * g - g) = i + N * g := by omega
  rw [Nat.add_mod_mod, hsum, Nat.add_mul_mod_self_left]

/-- A ring whose elements were all handed out is empty. -/
theorem Inv.slot_eq_default (h : Inv elem s) (hground : s.ring.offGround = s.ring.offCeiling)
    (off : ℕ) : s.ring.slot off = default := by
  obtain ⟨o, ho, ho', hmod⟩ := exists_window s.ring.offGround off (Nat.two_pow_pos s.ring.capShift)
  have hslot : s.ring.slot off = s.ring.slot o := by
    unfold Ring.slot
    rw [Ring.and_capMask, Ring.and_capMask, hmod]
  have hnot : o ∉ s.stored := fun hmem => by
    have := h.lt_ceiling o hmem
    omega
  rw [hslot, h.slot_eq o ho ho', if_neg hnot]

/-- When the elements stored are those below `n`, all of them are ready and none lies above. -/
theorem Inv.offsets_of_stored (h : Inv elem s) {n : ℕ} (hstored : ∀ off, off ∈ s.stored ↔ off < n) :
    s.ring.offFilled = n ∧ s.ring.offCeiling = n := by
  have hnot : ¬ s.ring.offFilled < n := fun hlt => h.filled_not_stored ((hstored _).mpr hlt)
  have hfilled := h.filled_le
  have hceiling : s.ring.offCeiling ≤ n := by
    rcases h.ceiling_stored with hzero | hmem
    · omega
    · have := (hstored _).mp hmem
      omega
  omega

/-- **Inverter results are handed out in order.** Whatever the interleaving of `Put`, the waits of
full rings and `GetBatch`: the batches, ordered by the numbers returned, are the elements in
sequence order; no `Put` comes too late and none overwrites an element; and when all elements below
`n` were put, one more `GetBatch` leaves nothing. -/
theorem batches_in_order [DecidableEq T] (helem : ∀ off, elem off ≠ default)
    (h : (system capShift elem).Reachable s) :
    (∀ ordered, InOrder ordered s.batches →
    ordered.flatMap Prod.snd = (List.range s.ring.offGround).map elem) ∧
    (∀ off, off ∉ s.stored → s.ring.offFilled ≤ off ∧
    (s.ring.hasRoom off = true → s.ring.slot off = default)) ∧
    (∀ n, s.waiting = [] → (∀ off, off ∈ s.stored ↔ off < n) →
      ∃ s', step elem s .getBatch = some s' ∧
      (∀ ordered, InOrder ordered s'.batches → ordered.flatMap Prod.snd = (List.range n).map elem) ∧
      s'.ring.offGround = n ∧ s'.ring.offCeiling = n ∧ ∀ off, s'.ring.slot off = default) := by
  have hinv := Inv.of_reachable helem h
  refine ⟨fun ordered => hinv.concat_batches, fun off hoff =>
    ⟨hinv.filled_le_of_not_stored hoff, fun hroom => ?_⟩, fun n _ hstored => ?_⟩
  · have hfilled := hinv.filled_le_of_not_stored hoff
    rw [hinv.slot_eq off (hinv.ground_le.trans hfilled) (of_decide_eq_true hroom), if_neg hoff]
  · obtain ⟨hfilled, hceiling⟩ := hinv.offsets_of_stored hstored
    have hnext := hinv.getBatch
    obtain ⟨-, hceiling'⟩ := hnext.offsets_of_stored hstored
    have hground : s.ring.getBatch.2.2.offGround = n := by
      unfold Ring.getBatch
      split
      next hempty => exact hempty.trans hfilled
      · exact hfilled
    refine ⟨_, rfl, fun ordered hordered => ?_, hground, hceiling',
      hnext.slot_eq_default (hground.trans hceiling'.symm)⟩
    rw [← hground]
    exact hnext.concat_batches hordered

theorem batches_in_order_swapped : ∃ s : State ℕ,
    (system 1 Nat.succ).run ⟨.make 1, [], [], []⟩ [.put 1, .getBatch, .put 0, .getBatch] = some s ∧
    s.batches = [(0, []), (0, [1, 2])] ∧
    ∀ ordered, InOrder ordered s.batches →
    ordered.flatMap Prod.snd = (List.range s.ring.offGround).map Nat.succ := by
  have hrun : ∃ s : State ℕ,
      (system 1 Nat.succ).run ⟨.make 1, [], [], []⟩ [.put 1, .getBatch, .put 0, .getBatch] =
      some s ∧ s.batches = [(0, []), (0, [1, 2])] := ⟨_, rfl, rfl⟩
  obtain ⟨s, hs, hbatches⟩ := hrun
  exact ⟨s, hs, hbatches, (batches_in_order Nat.succ_ne_zero (.of_run _ (.initial rfl) hs)).1⟩

end Infinity.Inverting
