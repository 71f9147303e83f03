import Infinity.Foundations.Outcome
import Infinity.Foundations.Transition

/-! # The order of commits on the log (`GetCommitTimeStampW`, `SendToWAL`)

A writing transaction registers its commit time stamp with an empty entry in `wait_conflict_ck_`.
When its conflicts are checked it puts its log entry there, or withdraws the registration; the
entries at the front of the map go to the log as one batch. Time stamps are also given to
transactions that begin or only read, and the calls of any number of transactions interleave.

* `logOrder_of_reachable`: the log is in commit order and holds the entries of all successful
  transactions that no undecided one is ahead of, and `SendToWAL` raises no error.
-/

namespace Infinity.Transactions

open Foundations List

/-! ## The map -/

section Map

variable {α : Type}

/-- `emplace` of a key with a null pointer in the ordered map. -/
def emplaceNull (ts : ℕ) : List (ℕ × Option α) → List (ℕ × Option α)
  | [] => [(ts, none)]
  | p :: ps => if p.1 < ts then p :: emplaceNull ts ps else if p.1 = ts then p :: ps
    else (ts, none) :: p :: ps

/-- `m[ts] = entry`. -/
def assign (ts : ℕ) (entry : α) (m : List (ℕ × Option α)) : List (ℕ × Option α) :=
  m.map fun p => if p.1 = ts then (ts, some entry) else p

def eraseKey (ts : ℕ) (m : List (ℕ × Option α)) : List (ℕ × Option α) := m.filter (·.1 ≠ ts)

def readyFront : List (ℕ × Option α) → List (ℕ × α)
  | (ts, some entry) :: m => (ts, entry) :: readyFront m
  | _ => []

def waitingRest : List (ℕ × Option α) → List (ℕ × Option α)
  | (_, some _) :: m => waitingRest m
  | m => m

end Map

/-! ## The queue -/

/-- The errors of `SendToWAL`. -/
inductive SendError where
  /-- `WalManager::PutEntry wait_conflict_ck_ is empty`. -/
  | waitEmpty
  /-- `WalManager::PutEntry wait_conflict_ck_.begin()->first > txn->CommitTS()`. -/
  | waitAhead
  /-- `std::out_of_range` of `wait_conflict_ck_.at`. -/
  | outOfRange
  deriving DecidableEq, Repr

/-- The part of the transaction manager that orders the log, for log entries of type `α`. The last
two fields record what transactions have done and are not read. -/
structure LogQueue (α : Type) where
  startTs : ℕ
  waitConflictCk : List (ℕ × Option α)
  batches : List (List (ℕ × α))
  registered : List ℕ
  /-- What the transaction of a commit time stamp has called `SendToWAL` with: its entry, or the
  null pointer of one that was rejected. -/
  sent : ℕ → Option (Option α)

/-- The actions of transactions. -/
inductive LogAction (α : Type) where
  /-- A time stamp for a transaction that begins or that has only read. -/
  | tick
  | getCommitTimeStampW
  | sendToWAL (commitTs : ℕ) (entry : Option α)

namespace LogQueue

variable {α : Type}

def log (q : LogQueue α) : List (ℕ × α) := q.batches.flatten

/-- `TxnManager::GetCommitTimeStampW`. -/
def getCommitTimeStampW (q : LogQueue α) : LogQueue α := { q with
    startTs := q.startTs + 1
    waitConflictCk := emplaceNull (q.startTs + 1) q.waitConflictCk
    registered := q.registered ++ [q.startTs + 1] }

/-- The end of `SendToWAL`, which hands the front of the map to the log. -/
def putReady (q : LogQueue α) (m : List (ℕ × Option α)) : LogQueue α := { q with
    waitConflictCk := waitingRest m
    batches := if readyFront m = [] then q.batches else q.batches ++ [readyFront m] }

/-- `TxnManager::SendToWAL`. -/
def sendToWAL (q : LogQueue α) (commitTs : ℕ) (entry : Option α) : Except SendError (LogQueue α) :=
  match q.waitConflictCk with
  | [] => .error .waitEmpty
  | first :: _ =>
    if commitTs < first.1 then .error .waitAhead
    else
      match entry with
      | some e =>
        if commitTs ∈ q.waitConflictCk.map Prod.fst then
          .ok (q.putReady (assign commitTs e q.waitConflictCk))
        else .error .outOfRange
      | none => .ok (q.putReady (eraseKey commitTs q.waitConflictCk))

/-- A transaction calls `SendToWAL` once, with the time stamp it has registered. -/
def MaySend (q : LogQueue α) (commitTs : ℕ) : Prop :=
  commitTs ∈ q.registered ∧ (q.sent commitTs).isNone

instance (q : LogQueue α) (commitTs : ℕ) : Decidable (q.MaySend commitTs) :=
  inferInstanceAs (Decidable (_ ∧ _))

/-- The state in which a call of `SendToWAL` is recorded. -/
def record (q : LogQueue α) (commitTs : ℕ) (entry : Option α) : LogQueue α :=
  { q with sent := fun ts => if ts = commitTs then some entry else q.sent ts }

def step (q : LogQueue α) : LogAction α → Option (LogQueue α)
  | .tick => some { q with startTs := q.startTs + 1 }
  | .getCommitTimeStampW => some q.getCommitTimeStampW
  | .sendToWAL commitTs entry =>
    if q.MaySend commitTs then
      ((q.record commitTs entry).sendToWAL commitTs entry).toOption
    else none

end LogQueue

def logging (α : Type) : TransitionSystem (LogQueue α) (LogAction α) where
  Initial q := ∃ startTs, q = ⟨startTs, [], [], [], fun _ => none⟩
  step := LogQueue.step

/-! ## The map and the log -/

section Map

variable {α : Type} {m : List (ℕ × Option α)}

theorem map_fst_assign (ts : ℕ) (entry : α) :
    (assign ts entry m).map Prod.fst = m.map Prod.fst := by
  unfold assign
  rw [map_map]
  apply map_congr_left
  intro p _
  show (if p.1 = ts then (ts, some entry) else p).1 = p.1
  split
  next h => exact h.symm
  · rfl

/-- A key above all others goes to the end of the map. -/
theorem emplaceNull_of_lt {ts : ℕ} {m : List (ℕ × Option α)} (h : ∀ p ∈ m, p.1 < ts) :
    emplaceNull ts m = m ++ [(ts, none)] := by
  induction m with
  | nil => rfl
  | cons p m ih =>
    unfold emplaceNull
    rw [if_pos (h p mem_cons_self), ih fun x hx => h x (mem_cons_of_mem p hx)]
    rfl

/-- The map is its ready front followed by the rest. -/
theorem readyFront_append_waitingRest (m : List (ℕ × Option α)) :
    (readyFront m).map (fun p => (p.1, some p.2)) ++ waitingRest m = m := by
  induction m with
  | nil => rfl
  | cons p m ih =>
    obtain ⟨ts, entry⟩ := p
    cases entry with
    | none => rfl
    | some e =>
      exact congrArg ((ts, some e) :: ·) ih

theorem head_waitingRest : ∀ p ∈ (waitingRest m).head?, p.2 = none := by
  induction m with
  | nil => nofun
  | cons p m ih =>
    obtain ⟨ts, entry⟩ := p
    cases entry with
    | none =>
      intro p hp
      cases hp
      rfl
    | some e => exact ih

end Map

namespace LogQueue

variable {α : Type} {q : LogQueue α} {ts : ℕ} {m : List (ℕ × Option α)}

/-- The log followed by the map `m` is in commit order, and the two hold what the transactions have
sent: an undecided transaction waits with a null pointer. -/
structure Sorted (q : LogQueue α) (m : List (ℕ × Option α)) : Prop where
  ascending : (q.log.map Prod.fst ++ m.map Prod.fst).Pairwise (· < ·)
  bound : ∀ ts ∈ q.registered, ts ≤ q.startTs
  unsent : ∀ ts, ts ∉ q.registered → q.sent ts = none
  waiting : ∀ ts ∈ q.registered, q.sent ts = none → (ts, none) ∈ m
  keys : ∀ p ∈ m, p.1 ∈ q.registered ∧ q.sent p.1 = p.2.map some
  logged : ∀ p ∈ q.log, p.1 ∈ q.registered ∧ q.sent p.1 = some (some p.2)
  complete : ∀ ts e, q.sent ts = some (some e) → (ts, e) ∈ q.log ∨ (ts, some e) ∈ m

/-- The invariant: the map is sorted so, and what it begins with is undecided. -/
structure Inv (q : LogQueue α) : Prop where
  sorted : q.Sorted q.waitConflictCk
  front : ∀ p ∈ q.waitConflictCk.head?, p.2 = none

theorem log_putReady : (q.putReady m).log = q.log ++ readyFront m := by
  unfold log putReady
  split
  next h => rw [h, append_nil]
  · rw [flatten_append, flatten_singleton]

/-- Handing the front of the map to the log keeps everything in order. -/
theorem Sorted.putReady (h : q.Sorted m) : (q.putReady m).Inv := by
  have hsplit := readyFront_append_waitingRest m
  have hmem : ∀ p, p ∈ m ↔ p ∈ (readyFront m).map (fun p => (p.1, some p.2)) ∨
      p ∈ waitingRest m := by
    intro p
    rw [← mem_append, hsplit]
  constructor
  · constructor
    · rw [log_putReady, map_append, append_assoc]
      have hkeys : m.map Prod.fst = (readyFront m).map Prod.fst ++
          (waitingRest m).map Prod.fst := by
        conv_lhs => rw [← hsplit]
        rw [map_append, map_map]
        rfl
      have hasc := h.ascending
      rw [hkeys] at hasc
      exact hasc
    · exact h.bound
    · exact h.unsent
    · intro ts hts hnone
      rcases (hmem _).mp (h.waiting ts hts hnone) with hfront | hrest
      · obtain ⟨p, -, ⟨⟩⟩ := mem_map.mp hfront
      · exact hrest
    · intro p hp
      exact h.keys p ((hmem p).mpr (.inr hp))
    · intro p hp
      rw [log_putReady] at hp
      rcases mem_append.mp hp with hp | hp
      · exact h.logged p hp
      · exact h.keys (p.1, some p.2) ((hmem _).mpr (.inl (mem_map_of_mem hp)))
    · intro ts e hsent
      rw [log_putReady]
      rcases h.complete ts e hsent with hlog | hm
      · exact .inl (mem_append_left _ hlog)
      · rcases (hmem _).mp hm with hfront | hrest
        · obtain ⟨p, hp, ⟨⟩⟩ := mem_map.mp hfront
          exact .inl (mem_append_right _ hp)
        · exact .inr hrest
  · exact head_waitingRest

/-- A call of `SendToWAL`: the map loses the null pointer of the transaction, and has its entry if
it was called with one. -/
theorem Sorted.record {m' : List (ℕ × Option α)} (h : q.Sorted m) (hts : q.MaySend ts)
    {entry : Option α} (hsub : (m'.map Prod.fst).Sublist (m.map Prod.fst))
    (hmem : ∀ p, p ∈ m' ↔ p.1 ≠ ts ∧ p ∈ m ∨ ∃ e, entry = some e ∧ p = (ts, some e)) :
    (q.record ts entry).Sorted m' := by
  obtain ⟨hreg, hnone⟩ := hts
  rw [Option.isNone_iff_eq_none] at hnone
  have hother : ∀ {u : ℕ}, u ≠ ts → (q.record ts entry).sent u = q.sent u := fun hu => if_neg hu
  have hself : (q.record ts entry).sent ts = some entry := if_pos rfl
  constructor
  · exact h.ascending.sublist ((Sublist.refl _).append hsub)
  · exact h.bound
  · intro u hu
    rw [hother (ne_of_mem_of_not_mem hreg hu).symm]
    exact h.unsent u hu
  · intro u hu hun
    rcases eq_or_ne u ts with rfl | hne
    · cases hself.symm.trans hun
    · rw [hother hne] at hun
      exact (hmem _).mpr (.inl ⟨hne, h.waiting u hu hun⟩)
  · intro p hp
    rcases (hmem p).mp hp with ⟨hne, hp⟩ | ⟨e, rfl, rfl⟩
    · rw [hother hne]
      exact h.keys p hp
    · exact ⟨hreg, hself⟩
  · intro p hp
    have hlogged := h.logged p hp
    have hne : p.1 ≠ ts := by
      intro heq
      rw [heq, hnone] at hlogged
      cases hlogged.2
    rw [hother hne]
    exact hlogged
  · intro u a hu
    rcases eq_or_ne u ts with rfl | hne
    · rw [hself, Option.some_inj] at hu
      exact .inr ((hmem _).mpr (.inr ⟨a, hu, rfl⟩))
    · rw [hother hne] at hu
      exact (h.complete u a hu).imp id fun hm => (hmem _).mpr (.inl ⟨hne, hm⟩)

theorem mem_assign_iff (hts : ts ∈ m.map Prod.fst) (e : α) (p : ℕ × Option α) : p ∈ assign ts e m ↔
      p.1 ≠ ts ∧ p ∈ m ∨ ∃ e', some e = some e' ∧ p = (ts, some e') := by
  unfold assign
  rw [mem_map]
  constructor
  · rintro ⟨p₀, hp₀, rfl⟩
    split
    · exact .inr ⟨e, rfl, rfl⟩
    next hne => exact .inl ⟨hne, hp₀⟩
  · rintro (⟨hne, hp⟩ | ⟨e', he, rfl⟩)
    · exact ⟨p, hp, if_neg hne⟩
    · cases he
      obtain ⟨p₀, hp₀, rfl⟩ := mem_map.mp hts
      exact ⟨p₀, hp₀, if_pos rfl⟩

theorem mem_eraseKey_iff (p : ℕ × Option α) :
    p ∈ eraseKey ts m ↔ p.1 ≠ ts ∧ p ∈ m ∨ ∃ e, none = some e ∧ p = (ts, some e) := by
  simp [eraseKey, and_comm]

/-- `SendToWAL` raises no error. -/
theorem Inv.sendToWAL_outcome (h : q.Inv) (hts : q.MaySend ts) (entry : Option α) :
    Outcome ((q.record ts entry).sendToWAL ts entry) Inv (fun _ => False) := by
  have hwait := h.sorted.waiting ts hts.1 (Option.isNone_iff_eq_none.mp hts.2)
  have hkey : ts ∈ q.waitConflictCk.map Prod.fst := mem_map_of_mem hwait
  have hrecord : (q.record ts entry).waitConflictCk = q.waitConflictCk := rfl
  have hasc : (q.waitConflictCk.map Prod.fst).Pairwise (· < ·) :=
    (pairwise_append.mp h.sorted.ascending).2.1
  unfold sendToWAL
  rw [hrecord]
  cases hmap : q.waitConflictCk with
  | nil =>
    rw [hmap] at hwait
    cases hwait
  | cons first m =>
    have hle : ¬ ts < first.1 := by
      rw [hmap] at hkey hasc
      rcases mem_cons.mp hkey with rfl | hkey
      · exact Nat.lt_irrefl _
      · exact Nat.lt_asymm ((pairwise_cons.mp hasc).1 ts hkey)
    dsimp only
    rw [if_neg hle, ← hmap]
    cases entry with
    | some e =>
      dsimp only
      rw [if_pos hkey]
      have hsub : ((assign ts e q.waitConflictCk).map Prod.fst).Sublist
          (q.waitConflictCk.map Prod.fst) := by
        exact (map_fst_assign ts e).symm ▸ Sublist.refl _
      exact (h.sorted.record hts hsub (mem_assign_iff hkey e)).putReady
    | none =>
      have hsub : ((eraseKey ts q.waitConflictCk).map Prod.fst).Sublist
          (q.waitConflictCk.map Prod.fst) := filter_sublist.map _
      exact (h.sorted.record hts hsub mem_eraseKey_iff).putReady

theorem Inv.getCommitTimeStampW (h : q.Inv) : q.getCommitTimeStampW.Inv := by
  obtain ⟨hsorted, hfront⟩ := h
  have hkeys : ∀ p ∈ q.waitConflictCk, p.1 < q.startTs + 1 := fun p hp =>
    Nat.lt_succ_of_le (hsorted.bound _ (hsorted.keys p hp).1)
  have hlogged : ∀ p ∈ q.log, p.1 < q.startTs + 1 := fun p hp =>
    Nat.lt_succ_of_le (hsorted.bound _ (hsorted.logged p hp).1)
  have hmap : q.getCommitTimeStampW.waitConflictCk =
      q.waitConflictCk ++ [(q.startTs + 1, none)] := emplaceNull_of_lt hkeys
  have hnew : q.sent (q.startTs + 1) = none := by
    apply hsorted.unsent
    intro hmem
    exact absurd (hsorted.bound _ hmem) (Nat.not_succ_le_self _)
  have hreg : ∀ {ts : ℕ}, ts ∈ q.registered → ts ∈ q.registered ++ [q.startTs + 1] :=
    fun hts => mem_append_left _ hts
  constructor
  · rw [hmap]
    constructor
    · rw [map_append, ← append_assoc]
      rw [pairwise_append]
      refine ⟨hsorted.ascending, pairwise_singleton _ _, ?_⟩
      intro ts hts new hnew
      rw [mem_singleton.mp hnew]
      rcases mem_append.mp hts with hts | hts
      · obtain ⟨p, hp, rfl⟩ := mem_map.mp hts
        exact hlogged p hp
      · obtain ⟨p, hp, rfl⟩ := mem_map.mp hts
        exact hkeys p hp
    · intro ts hts
      rcases mem_append.mp hts with hts | hts
      · exact Nat.le_succ_of_le (hsorted.bound ts hts)
      · exact Nat.le_of_eq (mem_singleton.mp hts)
    · intro ts hts
      exact hsorted.unsent ts fun hmem => hts (hreg hmem)
    · intro ts hts hnone
      rcases mem_append.mp hts with hts | hts
      · exact mem_append_left _ (hsorted.waiting ts hts hnone)
      · rw [mem_singleton.mp hts]
        exact mem_append_right _ mem_cons_self
    · intro p hp
      rcases mem_append.mp hp with hp | hp
      · exact ⟨hreg (hsorted.keys p hp).1, (hsorted.keys p hp).2⟩
      · rw [mem_singleton.mp hp]
        exact ⟨mem_append_right _ mem_cons_self, hnew⟩
    · intro p hp
      exact ⟨hreg (hsorted.logged p hp).1, (hsorted.logged p hp).2⟩
    · intro ts e hsent
      exact (hsorted.complete ts e hsent).imp id (mem_append_left _)
  · rw [hmap]
    cases hwait : q.waitConflictCk with
    | nil =>
      intro p hp
      cases hp
      rfl
    | cons first m =>
      rw [hwait] at hfront
      exact hfront

theorem Inv.step (h : q.Inv) {a : LogAction α} {q' : LogQueue α} (hs : q.step a = some q') :
    q'.Inv := by
  cases a with
  | tick =>
    cases hs
    exact ⟨{ h.sorted with bound := fun ts hts => Nat.le_succ_of_le (h.sorted.bound ts hts) },
      h.front⟩
  | getCommitTimeStampW =>
    cases hs
    exact h.getCommitTimeStampW
  | sendToWAL ts entry =>
    dsimp only [LogQueue.step] at hs
    split at hs
    next hts =>
      have hout := h.sendToWAL_outcome hts entry
      cases hsend : (q.record ts entry).sendToWAL ts entry with
      | error e => exact (hout.of_eq_error hsend).elim
      | ok q₁ =>
        rw [hsend] at hs
        cases hs
        exact hout.of_eq_ok hsend
    · cases hs

theorem Inv.of_reachable (h : (logging α).Reachable q) : q.Inv := by
  apply h.invariant
  · rintro _ ⟨startTs, rfl⟩
    exact ⟨⟨Pairwise.nil, nofun, fun _ _ => rfl, nofun, nofun, nofun, nofun⟩, nofun⟩
  · intro q a q' hinv hs
    exact hinv.step hs

/-! ## What is on the log -/

/-- An entry is on the log exactly if it was sent and no earlier transaction is undecided. -/
theorem Inv.mem_log_iff (h : q.Inv) {ts : ℕ} {e : α} : (ts, e) ∈ q.log ↔
    q.sent ts = some (some e) ∧ ∀ u ∈ q.registered, u < ts → q.sent u ≠ none := by
  obtain ⟨hsorted, hfront⟩ := h
  obtain ⟨-, hwaitAsc, hbetween⟩ := pairwise_append.mp hsorted.ascending
  constructor
  · intro hlog
    refine ⟨(hsorted.logged _ hlog).2, ?_⟩
    intro u hu hlt hnone
    have hwait := hsorted.waiting u hu hnone
    have hlt' := hbetween ts (mem_map_of_mem hlog) u (mem_map_of_mem hwait)
    exact Nat.lt_asymm hlt hlt'
  · rintro ⟨hsent, hearlier⟩
    rcases hsorted.complete ts e hsent with hlog | hwait
    · exact hlog
    · -- what the map begins with is undecided and earlier
      exfalso
      cases hmap : q.waitConflictCk with
      | nil =>
        rw [hmap] at hwait
        cases hwait
      | cons first m =>
        have hnone : first.2 = none := hfront first (by rw [hmap]; rfl)
        have hkey := hsorted.keys first (by rw [hmap]; exact mem_cons_self)
        rw [hnone] at hkey
        rw [hmap] at hwait hwaitAsc
        rcases mem_cons.mp hwait with rfl | hwait
        · cases hnone
        · have hlt := (pairwise_cons.mp hwaitAsc).1 ts (mem_map_of_mem hwait)
          exact hearlier first.1 hkey.1 hlt hkey.2

end LogQueue

open LogQueue

/-- **The log is in commit order**: strictly increasing, with the entries of exactly those
transactions that have sent one and that no undecided transaction is ahead of; so it has them all
when every transaction is decided. `SendToWAL` raises none of its errors. -/
theorem logOrder_of_reachable {α : Type} {q : LogQueue α} (h : (logging α).Reachable q) :
    (q.log.map Prod.fst).Pairwise (· < ·) ∧ q.log.Nodup ∧ (∀ ts e, (ts, e) ∈ q.log ↔
        q.sent ts = some (some e) ∧ ∀ u ∈ q.registered, u < ts → q.sent u ≠ none) ∧
      ((∀ u ∈ q.registered, q.sent u ≠ none) → ∀ ts e, (ts, e) ∈ q.log ↔
      q.sent ts = some (some e)) ∧
      ∀ ts entry, q.MaySend ts → ∀ err, (q.record ts entry).sendToWAL ts entry ≠ .error err := by
  have hinv := Inv.of_reachable h
  have hasc := (pairwise_append.mp hinv.sorted.ascending).1
  refine ⟨hasc, ?_, fun ts e => hinv.mem_log_iff, ?_, ?_⟩
  · exact (hasc.imp Nat.ne_of_lt).of_map Prod.fst fun _ _ hne heq => hne (congrArg Prod.fst heq)
  · intro hall ts e
    rw [hinv.mem_log_iff]
    exact and_iff_left fun u hu _ => hall u hu
  · intro ts entry hts err herr
    exact (hinv.sendToWAL_outcome hts entry).of_eq_error herr

/-- Two transactions of which the later one sends its entry first and the earlier one is
rejected. -/
def overtakingRun : List (LogAction ℕ) :=
  [.getCommitTimeStampW, .tick, .getCommitTimeStampW, .sendToWAL 3 (some 7), .sendToWAL 1 none]

def overtaken : LogQueue ℕ :=
  ((logging ℕ).run ⟨0, [], [], [], fun _ => none⟩ overtakingRun).get (by decide)

/-- The entry of the later transaction has waited for the rejection. -/
theorem logOrder_overtaken : (logging ℕ).Reachable overtaken ∧ overtaken.log = [(3, 7)] ∧
      ∀ ts e, (ts, e) ∈ overtaken.log ↔ overtaken.sent ts = some (some e) :=
  have hreach : (logging ℕ).Reachable overtaken :=
    .of_run overtakingRun (.initial ⟨0, rfl⟩) (Option.some_get _).symm
  ⟨hreach, rfl, (logOrder_of_reachable hreach).2.2.2.1 (by decide)⟩

end Infinity.Transactions
