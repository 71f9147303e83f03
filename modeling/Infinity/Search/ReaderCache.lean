import Infinity.Foundations.Transition

/-! # The cache of full-text index readers

`TableIndexReaderCache` keeps the readers that the last transaction built and hands them to later
transactions until an index change is known. `UpdateKnownUpdateTs` notes the change of an index at a
timestamp; `GetIndexReader` answers from the cache or builds new readers, and may replace the cache
by them. Both hold the mutex of the cache, so that a run is a sequence of calls. The `assert`s of
the source are left out, as a release build does.

A table has at most one full-text index for each column. What a reader holds is the list of the
index changes that it sees: those applied when it was built with a timestamp not above the
`begin_ts` of the transaction that built it.

* `Fresh`: a reader set contains every change visible at the `begin_ts` of the transaction that gets
  it.
* `not_fresh_older`: an old transaction that finds no change known replaces the cache, and every
  later transaction gets its readers.
* `fresh_of_ordered`: in the runs in which no call does so, and in which no change is noted too
  late, every reader set handed out is fresh. -/

namespace Infinity.Search

open Foundations List

/-! ## The cache -/

/-- A committed change of the full-text index of a column. -/
structure Change where
  column : ℕ
  ts : ℕ
  deriving DecidableEq, Repr

/-- `MAX_TIMESTAMP`. -/
def maxTimestamp : ℕ := 2 ^ 64 - 1

/-- The readers of a table, for each column that has one: `column_index_readers_`. -/
abbrev Readers := ℕ → Option (List Change)

/-- `TableIndexReaderCache`, with the timestamps `segment_update_ts` that the indexes of the table
keep. -/
structure ReaderCache where
  firstKnownUpdateTs : ℕ
  lastKnownUpdateTs : ℕ
  cacheTs : ℕ
  cacheColumnTs : ℕ → Option ℕ
  cacheColumnReaders : Readers
  segmentUpdateTs : ℕ → ℕ

namespace ReaderCache

def make : ReaderCache := ⟨0, 0, 0, fun _ => none, fun _ => none, fun _ => 0⟩

/-- `UpdateKnownUpdateTs` for the index of a column. -/
def updateKnownUpdateTs (c : ReaderCache) (column ts : ℕ) : ReaderCache :=
  if ts < c.segmentUpdateTs column then c
  else
    { c with
      segmentUpdateTs := Function.update c.segmentUpdateTs column ts
      firstKnownUpdateTs := min c.firstKnownUpdateTs ts
      lastKnownUpdateTs := max c.lastKnownUpdateTs ts }

/-- The condition under which `GetIndexReader` answers from the cache. -/
def usesCache (c : ReaderCache) (beginTs : ℕ) : Bool :=
  c.firstKnownUpdateTs ≠ 0 ∧ c.cacheTs ≤ beginTs ∧ beginTs < c.firstKnownUpdateTs

/-- `ColumnIndexReader::Open` on the segments of an index that a transaction sees. -/
def openReader (applied : List Change) (column beginTs : ℕ) : List Change :=
  applied.filter fun a => a.column = column ∧ a.ts ≤ beginTs

/-- The readers that `GetIndexReader` builds for the columns with an index. A cached reader built
for the same `begin_ts` is used again. -/
def buildReaders (c : ReaderCache) (indexed : List ℕ) (applied : List Change) (beginTs : ℕ) :
    Readers := fun column =>
  if column ∈ indexed ∧ 0 < beginTs then
    if c.cacheColumnTs column = some beginTs then c.cacheColumnReaders column
    else some (openReader applied column beginTs)
  else none

/-- The timestamps kept with the readers built. -/
def buildColumnTs (indexed : List ℕ) (beginTs : ℕ) : ℕ → Option ℕ := fun column =>
  if column ∈ indexed then some beginTs else none

/-- `GetIndexReader`: the readers handed out, and the cache after the call. -/
def getIndexReader (c : ReaderCache) (indexed : List ℕ) (applied : List Change) (beginTs : ℕ) :
    Readers × ReaderCache :=
  if c.usesCache beginTs then (c.cacheColumnReaders, c)
  else
    let result := c.buildReaders indexed applied beginTs
    if c.lastKnownUpdateTs ≤ beginTs then
      (result, { c with
          cacheTs := c.lastKnownUpdateTs
          firstKnownUpdateTs := maxTimestamp
          lastKnownUpdateTs := 0
          cacheColumnTs := buildColumnTs indexed beginTs
          cacheColumnReaders := result })
    else (result, c)

end ReaderCache

/-! ## Runs -/

/-- A reader set handed out: to a transaction with this `begin_ts`, when these changes were
applied. -/
structure Answer where
  beginTs : ℕ
  applied : List Change
  readers : Readers

/-- The cache with what was done. -/
structure CacheState where
  cache : ReaderCache
  applied : List Change
  answers : List Answer

/-- The calls on the cache. -/
inductive CacheCall where
  | update (change : Change)
  | get (beginTs : ℕ)
  deriving DecidableEq, Repr

/-- One call, for a table with full-text indexes on the columns `indexed`. Timestamps are
positive. -/
def CacheState.step (indexed : List ℕ) (s : CacheState) : CacheCall → Option CacheState
  | .update a =>
    if a.column ∈ indexed ∧ 0 < a.ts then
      some { s with cache := s.cache.updateKnownUpdateTs a.column a.ts, applied := a :: s.applied }
    else none
  | .get beginTs =>
    let (readers, cache) := s.cache.getIndexReader indexed s.applied beginTs
    some { s with cache := cache, answers := ⟨beginTs, s.applied, readers⟩ :: s.answers }

def cacheSystem (indexed : List ℕ) : TransitionSystem CacheState CacheCall where
  Initial s := s = ⟨.make, [], []⟩
  step := CacheState.step indexed

/-- **The reader set is fresh**: it contains every change visible at the `begin_ts`. -/
def Answer.Fresh (answer : Answer) : Prop :=
  ∀ a ∈ answer.applied, a.ts ≤ answer.beginTs → ∃ reader, answer.readers a.column = some reader ∧
    a ∈ reader

/-- The calls that keep the cache fresh. A change is noted by the cache, or the cache already knows
an older one; and it is newer than the readers cached for its column. A transaction that replaces
the cache is not older than a change. -/
def CacheState.Ordered (s : CacheState) : CacheCall → Prop
  | .update a =>
    (s.cache.segmentUpdateTs a.column ≤ a.ts ∨ s.cache.firstKnownUpdateTs ≤ a.ts) ∧
      ∀ b ∈ s.cache.cacheColumnTs a.column, b < a.ts
  | .get beginTs =>
    s.cache.usesCache beginTs = false → s.cache.lastKnownUpdateTs ≤ beginTs → ∀ a ∈ s.applied,
      a.ts ≤ beginTs

instance (s : CacheState) (call : CacheCall) : Decidable (s.Ordered call) := by
  cases call <;> unfold CacheState.Ordered <;> infer_instance

/-! ## Freshness -/

/-- What the calls keep: a change that the cached readers miss is not older than the first known
one, and a cached reader has all changes of its column up to the timestamp that it was built for. -/
structure CacheState.Inv (indexed : List ℕ) (s : CacheState) : Prop where
  indexed_pos : ∀ a ∈ s.applied, a.column ∈ indexed ∧ 0 < a.ts
  missing : s.cache.firstKnownUpdateTs ≠ 0 → ∀ a ∈ s.applied, a.ts < s.cache.firstKnownUpdateTs →
    ∃ reader, s.cache.cacheColumnReaders a.column = some reader ∧ a ∈ reader
  column : ∀ a ∈ s.applied, ∀ b ∈ s.cache.cacheColumnTs a.column, a.ts ≤ b →
    ∃ reader, s.cache.cacheColumnReaders a.column = some reader ∧ a ∈ reader
  fresh : ∀ answer ∈ s.answers, answer.Fresh

namespace CacheState

variable {indexed : List ℕ} {s s' : CacheState}

theorem Inv.make (hs : s = ⟨.make, [], []⟩) : s.Inv indexed := by
  subst hs
  exact ⟨nofun, fun _ => nofun, nofun, nofun⟩

/-- Readers that are built are fresh. -/
theorem Inv.buildReaders (h : s.Inv indexed) (beginTs : ℕ) :
    (Answer.mk beginTs s.applied (s.cache.buildReaders indexed s.applied beginTs)).Fresh := by
  intro a ha hle
  dsimp only at ha hle ⊢
  obtain ⟨hindexed, hpos⟩ := h.indexed_pos a ha
  unfold ReaderCache.buildReaders
  rw [if_pos ⟨hindexed, by omega⟩]
  split
  next hcached => exact h.column a ha beginTs hcached hle
  · exact ⟨_, rfl, mem_filter.mpr ⟨ha, by simp [hle]⟩⟩

/-- **A change keeps the invariant.** -/
theorem Inv.update (h : s.Inv indexed) {a : Change} (hordered : s.Ordered (.update a))
    (ha : a.column ∈ indexed ∧ 0 < a.ts) : Inv indexed
      { s with cache := s.cache.updateKnownUpdateTs a.column a.ts, applied := a :: s.applied } := by
  obtain ⟨hnoted, hnew⟩ := hordered
  have hcolumn : ∀ x ∈ a :: s.applied, ∀ b ∈ s.cache.cacheColumnTs x.column, x.ts ≤ b →
      ∃ reader, s.cache.cacheColumnReaders x.column = some reader ∧ x ∈ reader := by
    intro x hx b hb hle
    rcases mem_cons.mp hx with rfl | hx
    · exact absurd hle (not_le.mpr (hnew b hb))
    · exact h.column x hx b hb hle
  by_cases hskip : a.ts < s.cache.segmentUpdateTs a.column
  · have hcache : s.cache.updateKnownUpdateTs a.column a.ts = s.cache := if_pos hskip
    rw [hcache]
    refine ⟨forall_mem_cons.mpr ⟨ha, h.indexed_pos⟩, fun hne x hx hlt => ?_, hcolumn, h.fresh⟩
    rcases mem_cons.mp hx with rfl | hx
    · -- a change that is not noted is not older than one that is
      have hfirst := hnoted.resolve_left (not_le.mpr hskip)
      exact absurd hlt (not_lt.mpr hfirst)
    · exact h.missing hne x hx hlt
  · have hcache : s.cache.updateKnownUpdateTs a.column a.ts = _ := if_neg hskip
    rw [hcache]
    refine ⟨forall_mem_cons.mpr ⟨ha, h.indexed_pos⟩, fun hne x hx hlt => ?_, hcolumn, h.fresh⟩
    dsimp only at hne hlt ⊢
    rcases mem_cons.mp hx with rfl | hx
    · omega
    · exact h.missing (by omega) x hx (by omega)

/-- **A call of `GetIndexReader` keeps the invariant.** -/
theorem Inv.get (h : s.Inv indexed) {beginTs : ℕ} (hordered : s.Ordered (.get beginTs)) :
      Inv indexed { s with
      cache := (s.cache.getIndexReader indexed s.applied beginTs).2
      answers := ⟨beginTs, s.applied, (s.cache.getIndexReader indexed s.applied beginTs).1⟩ ::
      s.answers } := by
  have hbuilt := h.buildReaders beginTs
  by_cases hcached : s.cache.usesCache beginTs
  · have hget : s.cache.getIndexReader indexed s.applied beginTs =
      (s.cache.cacheColumnReaders, s.cache) := if_pos hcached
    obtain ⟨hne, -, hlt⟩ := of_decide_eq_true hcached
    rw [hget]
    refine ⟨h.indexed_pos, h.missing, h.column, forall_mem_cons.mpr ⟨fun a ha hle => ?_, h.fresh⟩⟩
    exact h.missing hne a ha (lt_of_le_of_lt hle hlt)
  · by_cases hreplace : s.cache.lastKnownUpdateTs ≤ beginTs
    · have hall := hordered (Bool.eq_false_iff.mpr hcached) hreplace
      have hget : s.cache.getIndexReader indexed s.applied beginTs = _ :=
        (if_neg hcached).trans (if_pos hreplace)
      rw [hget]
      refine ⟨h.indexed_pos, fun _ a ha _ => hbuilt a ha (hall a ha), fun a ha _ _ _ =>
        hbuilt a ha (hall a ha), ?_⟩
      exact forall_mem_cons.mpr ⟨hbuilt, h.fresh⟩
    · have hget : s.cache.getIndexReader indexed s.applied beginTs =
          (s.cache.buildReaders indexed s.applied beginTs, s.cache) :=
          (if_neg hcached).trans (if_neg hreplace)
      rw [hget]
      exact ⟨h.indexed_pos, h.missing, h.column, forall_mem_cons.mpr ⟨hbuilt, h.fresh⟩⟩

end CacheState

/-- **The reader cache is never stale** in a run whose calls are all ordered: every reader set
handed out contains the changes visible to the transaction that got it. -/
theorem fresh_of_ordered {indexed : List ℕ} {s : CacheState}
    (h : ((cacheSystem indexed).restrict CacheState.Ordered).Reachable s) :
    ∀ answer ∈ s.answers, answer.Fresh := by
  have hinv : s.Inv indexed := by
    refine TransitionSystem.Reachable.invariant (fun s hs => .make hs)
      (fun s call s' hs hstep => ?_) h
    obtain ⟨hordered, hstep⟩ := TransitionSystem.restrict_step_eq_some.mp hstep
    cases call with
    | update a =>
      simp only [cacheSystem, CacheState.step] at hstep
      split at hstep
      next ha =>
        cases hstep
        exact hs.update hordered ha
      · cases hstep
    | get beginTs =>
      cases hstep
      exact hs.get hordered
  exact hinv.fresh

/-- A run in which an old transaction builds its own readers beside the cache. -/
theorem fresh_of_ordered_old : ∃ s, ((cacheSystem [0]).restrict CacheState.Ordered).Reachable s ∧
    s.answers.map Answer.beginTs = [25, 15, 10] ∧ ∀ answer ∈ s.answers, answer.Fresh := by
  have hreach : ((cacheSystem [0]).restrict CacheState.Ordered).Reachable _ := .of_run
    [.update ⟨0, 1⟩, .update ⟨0, 10⟩, .get 10, .update ⟨0, 20⟩, .get 15, .get 25] (.initial rfl) rfl
  exact ⟨_, hreach, rfl, fresh_of_ordered hreach⟩

/-- **An old transaction replaces the cache**: after the readers for the change at 10 were built,
the transaction that began at 5 finds no known change, caches its own readers, and the transaction
that begins at 20 gets them without the change at 10. -/
theorem not_fresh_older : ∃ s, (cacheSystem [0]).Reachable s ∧ ∃ answer ∈ s.answers,
    ¬ answer.Fresh := by
  refine ⟨_, .of_run [.update ⟨0, 1⟩, .update ⟨0, 10⟩, .get 10, .get 5, .get 20] (.initial rfl) rfl,
    _, mem_cons_self, fun hfresh => ?_⟩
  obtain ⟨reader, hreader, hmem⟩ := hfresh ⟨0, 10⟩ mem_cons_self (by decide)
  have hold : reader = [⟨0, 1⟩] := (Option.some.inj hreader).symm
  rw [hold] at hmem
  exact absurd hmem (by decide)

end Infinity.Search
