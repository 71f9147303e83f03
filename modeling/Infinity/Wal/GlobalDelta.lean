import Infinity.Wal.DeltaMerge

/-! # Delta entries arrive in any order (`GlobalCatalogDeltaEntry::AddDeltaEntry`)

The transactions number their delta entries when they commit, but hand them over in any order. An
entry that is not the next one waits in a map, its number in a heap; the next one is merged, and
with it those that wait and follow without a gap.

* `GlobalCatalogDeltaEntry.Merging.continuous`: the loop merges the entry and what follows it
  without a gap.
* `GlobalCatalogDeltaEntry.addDeltaEntry_any_order`: after every call exactly the entries up to the
  first gap are merged, in the order of their numbers, and the others wait. -/

namespace Infinity.Wal

open Foundations Infinity.Parser List Function SequencedEntry

/-- `GlobalCatalogDeltaEntry`. The numbers are given one by one and do not come near `2 ^ 64`. -/
structure GlobalCatalogDeltaEntry where
  lastSequence : ℕ
  sequenceHeap : List ℕ
  deltaEntryMap : ℕ → Option SequencedEntry
  /-- `delta_ops_`, `txn_ids_`, `max_commit_ts_` and `last_full_ckp_ts_`. -/
  merged : Merged
  walSize : ℤ

namespace GlobalCatalogDeltaEntry

def wait (g : GlobalCatalogDeltaEntry) (e : SequencedEntry) : GlobalCatalogDeltaEntry := { g with
    sequenceHeap := g.sequenceHeap.orderedInsert (· ≤ ·) e.sequence
    -- `emplace` leaves an entry of the same number
    deltaEntryMap :=
      update g.deltaEntryMap e.sequence (some ((g.deltaEntryMap e.sequence).getD e)) }

/-- The first half of the loop: the entry is merged. -/
def absorb (g : GlobalCatalogDeltaEntry) (walSize : ℤ) (e : SequencedEntry) :
    Except Exn GlobalCatalogDeltaEntry := do
  let merged ← g.merged.addDeltaEntryInner e
  .ok { g with
    lastSequence := g.lastSequence + 1
    merged := merged
    walSize := max g.walSize walSize }

/-- The second half: the first number leaves the heap, and its entry the map. -/
def pop (g : GlobalCatalogDeltaEntry) (top : ℕ) (rest : List ℕ) : GlobalCatalogDeltaEntry :=
  { g with
    sequenceHeap := rest
    deltaEntryMap := update g.deltaEntryMap top none }

/-- The continuous case: the loop, on the heap. -/
def continuous (walSize : ℤ) : List ℕ → GlobalCatalogDeltaEntry → SequencedEntry →
    Except Exn GlobalCatalogDeltaEntry
  | [], g, e => g.absorb walSize e
  | top :: rest, g, e => do
    let g ← g.absorb walSize e
    if top = g.lastSequence + 1 then
      match g.deltaEntryMap top with
      | none =>
        .error (.unrecoverable ("sequence_heap_.top() " ++ toString top ++ " in delta_entry_map_"))
      | some e' => continuous walSize rest (g.pop top rest) e'
    else .ok g

/-- `GlobalCatalogDeltaEntry::AddDeltaEntry`. -/
def addDeltaEntry (g : GlobalCatalogDeltaEntry) (e : SequencedEntry) (walSize : ℤ) :
    Except Exn GlobalCatalogDeltaEntry :=
  if e.sequence ≠ g.lastSequence + 1 then .ok (g.wait e)
  else continuous walSize g.sequenceHeap g e

def addDeltaEntries (g : GlobalCatalogDeltaEntry) (calls : List (SequencedEntry × ℤ)) :
    Except Exn GlobalCatalogDeltaEntry :=
  calls.foldlM (fun g call => g.addDeltaEntry call.1 call.2) g

end GlobalCatalogDeltaEntry

/-! ## The entries up to the first gap -/

def Merged.addAll (m : Merged) (run : List SequencedEntry) : Except Exn Merged :=
  run.foldlM Merged.addDeltaEntryInner m

/-- **The longest run without a gap.** The entries of `run` are those received with the numbers
behind `k`, one after the other, and the number behind the last one was not received. -/
structure ContiguousRun (k : ℕ) (received run : List SequencedEntry) : Prop where
  sequences : run.map sequence = List.range' (k + 1) run.length
  subset : ∀ e ∈ run, e ∈ received
  longest : ∀ e ∈ received, e.sequence ≠ k + run.length + 1

namespace ContiguousRun

theorem exists_of_le (k n : ℕ) (received : List SequencedEntry)
    (h : ∀ e ∈ received, e.sequence ≤ k + n) : ∃ run, ContiguousRun k received run := by
  induction n generalizing k with
  | zero =>
    refine ⟨[], rfl, nofun, fun e he => ?_⟩
    have hle := h e he
    omega
  | succ n ih =>
    by_cases hnext : ∃ e ∈ received, e.sequence = k + 1
    · obtain ⟨e, he, hseq⟩ := hnext
      obtain ⟨run, hrun⟩ := ih (k + 1) fun e he => (h e he).trans (by omega)
      refine ⟨e :: run, ?_, ?_, ?_⟩
      · rw [map_cons, hrun.sequences, hseq]
        rfl
      · exact forall_mem_cons.mpr ⟨he, hrun.subset⟩
      · intro d hd
        have hlongest := hrun.longest d hd
        rw [length_cons]
        omega
    · exact ⟨[], rfl, nofun, fun e he heq => hnext ⟨e, he, heq⟩⟩

theorem exists_run (k : ℕ) (received : List SequencedEntry) :
    ∃ run, ContiguousRun k received run := by
  obtain ⟨n, hn⟩ := (received.map sequence).toFinset.exists_le
  apply exists_of_le k n
  intro e he
  exact (hn _ (mem_toFinset.mpr (mem_map_of_mem he))).trans (Nat.le_add_left n k)

variable {k : ℕ} {received run run' : List SequencedEntry}

/-- A run that may be continued is the beginning of the longest one. -/
theorem isPrefix (h : ContiguousRun k received run)
    (hsequences : run'.map sequence = List.range' (k + 1) run'.length)
    (hsubset : ∀ e ∈ run', e ∈ received) (hnodup : (received.map sequence).Nodup) :
    run' <+: run := by
  have hget : ∀ {l : List SequencedEntry}, l.map sequence = List.range' (k + 1) l.length →
      ∀ {i : ℕ} (hi : i < l.length), l[i].sequence = k + 1 + i := by
    intro l hl i hi
    have hget := getElem_of_eq hl (by rwa [length_map])
    rwa [getElem_map, getElem_range', Nat.one_mul] at hget
  have hle : run'.length ≤ run.length := by
    by_contra! hlt
    refine h.longest _ (hsubset _ (getElem_mem hlt)) ?_
    rw [hget hsequences hlt]
    omega
  refine prefix_iff_getElem.mpr ⟨hle, fun i hi => ?_⟩
  apply inj_on_of_nodup_map hnodup (hsubset _ (getElem_mem hi))
    (h.subset _ (getElem_mem (hi.trans_le hle)))
  rw [hget hsequences hi, hget h.sequences (hi.trans_le hle)]

end ContiguousRun

namespace GlobalCatalogDeltaEntry

variable {g g' : GlobalCatalogDeltaEntry} {e : SequencedEntry} {walSize : ℤ}

/-! ## Whole sequences of calls -/

/-- The entries received so far are merged up to the first gap, and the others wait. -/
structure Delivered (k : ℕ) (start : Merged) (received run : List SequencedEntry)
    (g : GlobalCatalogDeltaEntry) : Prop where
  contiguous : ContiguousRun k received run
  merged : start.addAll run = .ok g.merged
  last : g.lastSequence = k + run.length
  sorted : g.sequenceHeap.Pairwise (· < ·)
  heap : ∀ q, q ∈ g.sequenceHeap ↔ (g.deltaEntryMap q).isSome = true
  map : ∀ q, g.deltaEntryMap q =
    if q ≤ g.lastSequence then none else received.find? (·.sequence = q)

/-- Merging up to the first gap fails, and so do the calls, or both succeed. -/
def Delivers (k : ℕ) (start : Merged) (received : List SequencedEntry)
    (result : Except Exn GlobalCatalogDeltaEntry) : Prop :=
  ∃ run, ContiguousRun k received run ∧ ((∃ g, result = .ok g ∧ Delivered k start received run g) ∨
    ∃ err, start.addAll run = .error err ∧ result = .error err)

variable {k : ℕ} {start : Merged} {received run : List SequencedEntry} {heap : List ℕ} {q : ℕ}

theorem find?_eq_some (hnodup : (received.map sequence).Nodup) :
    received.find? (·.sequence = q) = some e ↔ e ∈ received ∧ e.sequence = q := by
  constructor
  · exact fun h => ⟨mem_of_find?_eq_some h, by simpa using find?_some h⟩
  · rintro ⟨he, rfl⟩
    obtain ⟨d, hd⟩ := Option.isSome_iff_exists.mp
      (find?_isSome.mpr ⟨e, he, decide_eq_true rfl⟩ :
      (received.find? (·.sequence = e.sequence)).isSome)
    have hseq : d.sequence = e.sequence := by simpa using find?_some hd
    rw [hd, inj_on_of_nodup_map hnodup (mem_of_find?_eq_some hd) he hseq]

/-- An error of the merging ends everything: the longest run has it too. -/
theorem Delivers.of_error {err : Exn} (hnodup : (received.map sequence).Nodup)
    (hsequences : run.map sequence = List.range' (k + 1) run.length)
    (hsubset : ∀ e ∈ run, e ∈ received) (herr : start.addAll run = .error err) :
    Delivers k start received (.error err) := by
  obtain ⟨run', hrun'⟩ := ContiguousRun.exists_run k received
  obtain ⟨tail, rfl⟩ := hrun'.isPrefix hsequences hsubset hnodup
  refine ⟨_, hrun', .inr ⟨err, ?_, rfl⟩⟩
  unfold Merged.addAll at herr ⊢
  rw [foldlM_append, herr]
  rfl

/-! ## The loop -/

/-- Before a turn of the loop: the entries of `run` are merged, `e` is the next one, and the others
wait. -/
structure Merging (k : ℕ) (start : Merged) (received run : List SequencedEntry)
    (g : GlobalCatalogDeltaEntry) (e : SequencedEntry) : Prop where
  nodup : (received.map sequence).Nodup
  sequences : run.map sequence = List.range' (k + 1) run.length
  subset : ∀ d ∈ run, d ∈ received
  merged : start.addAll run = .ok g.merged
  last : g.lastSequence = k + run.length
  mem : e ∈ received
  next : e.sequence = g.lastSequence + 1
  sorted : g.sequenceHeap.Pairwise (· < ·)
  heap : ∀ q, q ∈ g.sequenceHeap ↔ g.lastSequence + 1 < q ∧ ∃ d ∈ received, d.sequence = q
  map : ∀ q, g.deltaEntryMap q =
    if q ≤ g.lastSequence + 1 then none else received.find? (·.sequence = q)

namespace Merging

section

variable (h : Merging k start received run g e) {merged : Merged}
include h

/-- The run with the next entry. -/
theorem extend : (run ++ [e]).map sequence = List.range' (k + 1) (run ++ [e]).length ∧
      (∀ d ∈ run ++ [e], d ∈ received) ∧
      start.addAll (run ++ [e]) = g.merged.addDeltaEntryInner e := by
  refine ⟨?_, ?_, ?_⟩
  · have hnext : e.sequence = k + 1 + run.length := by rw [h.next, h.last]; omega
    rw [map_append, h.sequences, length_append, length_singleton, ← range'_append_1, map_singleton,
      hnext]
    rfl
  · exact forall_mem_append.mpr ⟨h.subset, by simpa using h.mem⟩
  · have hok := h.merged
    unfold Merged.addAll at hok ⊢
    rw [foldlM_append, hok]
    exact bind_pure (g.merged.addDeltaEntryInner e)

/-- The loop ends where the number behind the next one was not received. -/
theorem stop (walSize : ℤ)
    (hinner : g.merged.addDeltaEntryInner e = .ok merged)
    (hgap : g.lastSequence + 2 ∉ g.sequenceHeap) : Delivered k start received (run ++ [e])
      { g with
        lastSequence := g.lastSequence + 1, merged := merged, walSize := max g.walSize walSize } := by
  obtain ⟨hsequences, hsubset, hadd⟩ := h.extend
  have hlast : g.lastSequence + 1 = k + (run ++ [e]).length := by simp [h.last, Nat.add_assoc]
  refine ⟨⟨hsequences, hsubset, fun d hd heq => hgap ?_⟩, hadd.trans hinner, hlast, h.sorted,
    fun q => ?_, h.map⟩
  · exact (h.heap _).mpr ⟨Nat.lt_succ_self _, d, hd, by omega⟩
  · simp only [h.heap, h.map]
    split
    next hle => simp [hle]
    next hlt => simpa using fun _ _ _ => not_le.mp hlt

/-- The loop goes on with the entry of the first number in the heap. -/
theorem turn {rest : List ℕ} (walSize : ℤ)
    (hinner : g.merged.addDeltaEntryInner e = .ok merged)
    (hheap : g.sequenceHeap = (g.lastSequence + 2) :: rest) :
      ∃ e', g.deltaEntryMap (g.lastSequence + 2) = some e' ∧ Merging k start received (run ++ [e])
      (GlobalCatalogDeltaEntry.pop { g with
        lastSequence := g.lastSequence + 1, merged := merged, walSize := max g.walSize walSize }
        (g.lastSequence + 2) rest) e' := by
  obtain ⟨hsequences, hsubset, hadd⟩ := h.extend
  have hsorted := h.sorted
  rw [hheap, pairwise_cons] at hsorted
  obtain ⟨-, e', he', hseq⟩ := (h.heap (g.lastSequence + 2)).mp (hheap ▸ mem_cons_self)
  have hfind := (find?_eq_some h.nodup).mpr ⟨he', hseq⟩
  refine ⟨e', by rw [h.map, if_neg (by omega), hfind], h.nodup, hsequences, hsubset,
    hadd.trans hinner,
    by simp [pop, h.last, Nat.add_assoc], he', hseq, hsorted.2, fun q => ?_, fun q => ?_⟩
  · have hq := h.heap q
    rw [hheap, mem_cons] at hq
    have hlater := hsorted.1 q
    simp only [pop]
    constructor
    · exact fun hin => ⟨hlater hin, (hq.mp (.inr hin)).2⟩
    · exact fun hd => (hq.mpr ⟨by omega, hd.2⟩).resolve_left (by omega)
  · show update g.deltaEntryMap _ none q = if q ≤ g.lastSequence + 1 + 1 then _ else _
    by_cases hq : q = g.lastSequence + 2
    · rw [hq, update_self, if_pos le_rfl]
    · rw [update_of_ne hq, h.map]
      congr 1
      apply propext
      omega

/-- **The loop merges the entry and those that follow it without a gap.** -/
theorem continuous (walSize : ℤ) (hheap : g.sequenceHeap = heap) :
    Delivers k start received (GlobalCatalogDeltaEntry.continuous walSize heap g e) := by
  induction heap generalizing g e run with
  | nil =>
    obtain ⟨hsequences, hsubset, hadd⟩ := h.extend
    unfold GlobalCatalogDeltaEntry.continuous absorb
    cases hinner : g.merged.addDeltaEntryInner e with
    | error err => exact .of_error h.nodup hsequences hsubset (hadd.trans hinner)
    | ok merged =>
      have hdelivered := h.stop walSize hinner (by simp [hheap])
      exact ⟨_, hdelivered.contiguous, .inl ⟨_, rfl, hdelivered⟩⟩
  | cons top rest ih =>
    obtain ⟨hsequences, hsubset, hadd⟩ := h.extend
    unfold GlobalCatalogDeltaEntry.continuous absorb
    cases hinner : g.merged.addDeltaEntryInner e with
    | error err => exact .of_error h.nodup hsequences hsubset (hadd.trans hinner)
    | ok merged =>
      dsimp only [Except.bind, bind]
      split
      next htop =>
        obtain rfl : top = g.lastSequence + 2 := htop
        obtain ⟨e', hmap, hmerging⟩ := h.turn walSize hinner hheap
        rw [hmap]
        exact ih hmerging rfl
      next htop =>
        have hgap : g.lastSequence + 2 ∉ g.sequenceHeap := by
          have hsorted := h.sorted
          have hlater := ((h.heap top).mp (hheap ▸ mem_cons_self)).1
          rw [hheap, pairwise_cons] at hsorted
          rw [hheap, mem_cons]
          rintro (heq | hin)
          · exact htop heq.symm
          · have hlt := hsorted.1 _ hin
            omega
        have hdelivered := h.stop walSize hinner hgap
        exact ⟨_, hdelivered.contiguous, .inl ⟨_, rfl, hdelivered⟩⟩

end

end Merging

/-! ## One call -/

theorem pairwise_orderedInsert (h : heap.Pairwise (· < ·)) (hq : q ∉ heap) :
    (heap.orderedInsert (· ≤ ·) q).Pairwise (· < ·) := by
  have hle := Pairwise.orderedInsert q heap (h.imp le_of_lt)
  have hnodup : (heap.orderedInsert (· ≤ ·) q).Nodup :=
    (perm_orderedInsert _ q heap).nodup_iff.mpr (nodup_cons.mpr ⟨hq, h.imp ne_of_lt⟩)
  exact (hle.and hnodup).imp fun hboth => hboth.1.lt_of_ne hboth.2

theorem find?_concat (hnodup : ((received ++ [e]).map sequence).Nodup) :
    (received ++ [e]).find? (·.sequence = q) =
      if q = e.sequence then some e else received.find? (·.sequence = q) := by
  split
  next hq => exact (find?_eq_some hnodup).mpr ⟨by simp, hq.symm⟩
  next hq =>
    rw [find?_append, find?_cons_of_neg, find?_nil, Option.or_none]
    simpa using Ne.symm hq

section Call

variable (h : Delivered k start received run g) (hnodup : ((received ++ [e]).map sequence).Nodup)
  (hnew : ∀ d ∈ received, d.sequence ≠ e.sequence)
include h hnodup hnew

/-- An entry that is not the next one waits. -/
theorem Delivered.wait (hk : k < e.sequence) (hne : e.sequence ≠ g.lastSequence + 1) :
    Delivered k start (received ++ [e]) run (g.wait e) := by
  have hlast : g.lastSequence < e.sequence := by
    by_contra! hle
    have hin : e.sequence ∈ run.map sequence := by
      rw [h.contiguous.sequences, mem_range'_1]
      rw [h.last] at hle
      omega
    obtain ⟨d, hd, hseq⟩ := mem_map.mp hin
    exact hnew d (h.contiguous.subset d hd) hseq
  have hnone : g.deltaEntryMap e.sequence = none := by
    rw [h.map, if_neg hlast.not_ge, find?_eq_none]
    simpa using hnew
  have hmap : (g.wait e).deltaEntryMap = update g.deltaEntryMap e.sequence (some e) := by
    simp [GlobalCatalogDeltaEntry.wait, hnone]
  have hheap : e.sequence ∉ g.sequenceHeap := by simp [h.heap, hnone]
  refine ⟨⟨h.contiguous.sequences, fun d hd => mem_append_left _ (h.contiguous.subset d hd), ?_⟩,
    h.merged, h.last, pairwise_orderedInsert h.sorted hheap, fun q => ?_, fun q => ?_⟩
  · refine forall_mem_append.mpr ⟨h.contiguous.longest, ?_⟩
    simpa [← h.last] using hne
  · rw [hmap]
    show q ∈ g.sequenceHeap.orderedInsert (· ≤ ·) e.sequence ↔ _
    rw [mem_orderedInsert, h.heap]
    by_cases hq : q = e.sequence <;> simp [hq]
  · rw [hmap, find?_concat hnodup]
    show _ = if q ≤ g.lastSequence then _ else _
    by_cases hq : q = e.sequence
    · simp [hq, hlast.not_ge]
    · simp [hq, h.map]

/-- The next entry goes into the loop. -/
theorem Delivered.merging (he : e.sequence = g.lastSequence + 1) :
    Merging k start (received ++ [e]) run g e := by
  refine ⟨hnodup, h.contiguous.sequences, fun d hd => mem_append_left _ (h.contiguous.subset d hd),
    h.merged, h.last, by simp, he, h.sorted, fun q => ?_, fun q => ?_⟩
  · rw [h.heap, h.map]
    split
    next hle => simpa using fun hlt => absurd hle (by omega)
    next hlt =>
      rw [find?_isSome]
      constructor
      · rintro ⟨d, hd, hseq⟩
        have hlongest := h.contiguous.longest d hd
        have hseq : d.sequence = q := by simpa using hseq
        exact ⟨by rw [h.last] at hlt ⊢; omega, d, mem_append_left _ hd, hseq⟩
      · rintro ⟨hlater, d, hd, rfl⟩
        refine ⟨d, (mem_append.mp hd).resolve_right fun heq => ?_, decide_eq_true rfl⟩
        rw [mem_singleton.mp heq] at hlater
        omega
  · rw [h.map, find?_concat hnodup]
    by_cases hq : q = e.sequence
    · rw [hq, if_pos he.le, if_neg (by omega), find?_eq_none]
      simpa using hnew
    · have hiff : q ≤ g.lastSequence + 1 ↔ q ≤ g.lastSequence := by omega
      simp [hq, hiff]

/-- One call. -/
theorem Delivered.addDeltaEntry (walSize : ℤ) (hk : k < e.sequence) :
    Delivers k start (received ++ [e]) (g.addDeltaEntry e walSize) := by
  unfold GlobalCatalogDeltaEntry.addDeltaEntry
  split
  next hne =>
    have hwait := h.wait hnodup hnew hk hne
    exact ⟨run, hwait.contiguous, .inl ⟨g.wait e, rfl, hwait⟩⟩
  next heq => exact (h.merging hnodup hnew (not_not.mp heq)).continuous walSize rfl

end Call

/-- Any number of calls. -/
theorem delivered_addDeltaEntries (hheap : g.sequenceHeap = [])
    (hmap : ∀ q, g.deltaEntryMap q = none) (calls : List (SequencedEntry × ℤ))
    (hnodup : (calls.map fun call => call.1.sequence).Nodup)
    (hlater : ∀ call ∈ calls, g.lastSequence < call.1.sequence) :
    Delivers g.lastSequence g.merged (calls.map Prod.fst) (g.addDeltaEntries calls) := by
  induction calls using List.reverseRecOn with
  | nil =>
    have hrun : ContiguousRun g.lastSequence [] [] := ⟨rfl, nofun, nofun⟩
    refine ⟨[], hrun, .inl ⟨g, rfl, hrun, rfl, rfl, ?_, ?_, ?_⟩⟩
    · rw [hheap]
      exact .nil
    · intro q
      rw [hheap, hmap]
      exact iff_of_false not_mem_nil nofun
    · intro q
      rw [hmap, map_nil, find?_nil, ite_self]
  | append_singleton calls call ih =>
    have hseqs : ((calls.map Prod.fst ++ [call.1]).map sequence).Nodup := by
      simpa [comp_def] using hnodup
    have hnew : ∀ d ∈ calls.map Prod.fst, d.sequence ≠ call.1.sequence := by
      rw [map_append, nodup_append] at hseqs
      intro d hd
      exact hseqs.2.2 _ (mem_map_of_mem hd) _ (mem_singleton.mpr rfl)
    obtain ⟨run, hrun, hresult⟩ := ih (hnodup.sublist ((sublist_append_left _ _).map _))
      fun c hc => hlater c (mem_append_left _ hc)
    have hfold : g.addDeltaEntries (calls ++ [call]) =
        g.addDeltaEntries calls >>= fun g' => g'.addDeltaEntry call.1 call.2 := by
      unfold addDeltaEntries
      rw [foldlM_append]
      congr 1
      funext g'
      exact bind_pure _
    rw [map_append, hfold]
    rcases hresult with ⟨g', hg', hdelivered⟩ | ⟨err, herr, hg'⟩ <;> rw [hg']
    · exact hdelivered.addDeltaEntry hseqs hnew call.2 (hlater call (by simp))
    · exact .of_error hseqs hrun.sequences (fun d hd => mem_append_left _ (hrun.subset d hd)) herr

/-- **Delta entries may arrive in any order.** The entries with the numbers behind the last one are
handed over in any order. After every call the operations, the transactions and the time stamp are
those of merging, in the order of the numbers, the entries up to the first gap; the other entries
wait, and none waits in the end. -/
theorem addDeltaEntry_any_order (hheap : g.sequenceHeap = []) (hmap : ∀ q, g.deltaEntryMap q = none)
    (n : ℕ) (calls : List (SequencedEntry × ℤ))
    (hperm : (calls.map fun call => call.1.sequence).Perm (List.range' (g.lastSequence + 1) n))
    (m : ℕ) :
    ∃ run, ContiguousRun g.lastSequence ((calls.take m).map Prod.fst) run ∧
    match g.merged.addAll run with
      | .ok merged => ∃ g', g.addDeltaEntries (calls.take m) = .ok g' ∧ g'.merged = merged ∧
          g'.lastSequence = g.lastSequence + run.length ∧
            (∀ q, g'.deltaEntryMap q = if q ≤ g'.lastSequence then none
            else ((calls.take m).map Prod.fst).find? (·.sequence = q)) ∧
          (∀ q, q ∈ g'.sequenceHeap ↔ (g'.deltaEntryMap q).isSome = true) ∧
          (n ≤ m → g'.sequenceHeap = [] ∧ ∀ q, g'.deltaEntryMap q = none)
      | .error err => g.addDeltaEntries (calls.take m) = .error err := by
  have hnodup : (calls.map fun call => call.1.sequence).Nodup := hperm.nodup_iff.mpr nodup_range'
  have hseq : ∀ q, (∃ call ∈ calls, call.1.sequence = q) ↔ g.lastSequence < q ∧
      q ≤ g.lastSequence + n := by
    intro q
    rw [← mem_map, hperm.mem_iff, mem_range'_1]
    omega
  obtain ⟨run, hrun, hresult⟩ := delivered_addDeltaEntries hheap hmap (calls.take m)
    (hnodup.sublist ((take_sublist m calls).map _)) fun call hcall =>
    ((hseq _).mp ⟨call, mem_of_mem_take hcall, rfl⟩).1
  refine ⟨run, hrun, ?_⟩
  rcases hresult with ⟨g', hg', hdelivered⟩ | ⟨err, herr, hg'⟩
  · rw [hdelivered.merged]
    refine ⟨g', hg', rfl, hdelivered.last, hdelivered.map, hdelivered.heap, fun hle => ?_⟩
    have hlength : calls.length = n := by
      rw [← length_map (fun call => call.1.sequence), hperm.length_eq, length_range']
    rw [take_of_length_le (hlength.trans_le hle)] at hrun hdelivered
    -- no number up to the last one is missing, so the run has them all
    have hall : n ≤ run.length := by
      by_contra hlt
      obtain ⟨call, hcall, heq⟩ := (hseq (g.lastSequence + run.length + 1)).mpr (by omega)
      exact hrun.longest call.1 (mem_map_of_mem hcall) heq
    have hempty : ∀ q, g'.deltaEntryMap q = none := by
      intro q
      rw [hdelivered.map, ite_eq_left_iff, find?_eq_none]
      intro hnot d hd heq
      obtain ⟨call, hcall, rfl⟩ := mem_map.mp hd
      have hbound := (hseq _).mp ⟨call, hcall, decide_eq_true_iff.mp heq⟩
      rw [hdelivered.last] at hnot
      omega
    refine ⟨?_, hempty⟩
    rw [eq_nil_iff_forall_not_mem]
    intro q hq
    rw [hdelivered.heap, hempty] at hq
    cases hq
  · rw [herr]
    exact hg'

def initial : GlobalCatalogDeltaEntry := ⟨0, [], fun _ => none, ⟨[], ∅, 0, 0⟩, 0⟩

def emptyEntry (sequence : ℕ) (txnId commitTs : UInt64) : SequencedEntry :=
  ⟨sequence, [txnId], ⟨commitTs, []⟩⟩

/-- Three entries, the first of which comes last. -/
theorem addDeltaEntry_first_last : ∃ run g',
    ContiguousRun 0 [emptyEntry 2 8 20, emptyEntry 3 7 30, emptyEntry 1 9 10] run ∧
    initial.addDeltaEntries [(emptyEntry 2 8 20, 0), (emptyEntry 3 7 30, 0),
    (emptyEntry 1 9 10, 0)] = .ok g' ∧
    initial.merged.addAll run = .ok g'.merged ∧ g'.sequenceHeap = [] := by
  obtain ⟨run, hrun, hresult⟩ := addDeltaEntry_any_order (g := initial) rfl (fun _ => rfl) 3
    [(emptyEntry 2 8 20, 0), (emptyEntry 3 7 30, 0), (emptyEntry 1 9 10, 0)] (by decide) 3
  cases hall : initial.merged.addAll run with
  | ok merged =>
    rw [hall] at hresult
    obtain ⟨g', hg', hmerged, -, -, -, hempty⟩ := hresult
    exact ⟨run, g', hrun, hg', by rw [hall, hmerged], (hempty le_rfl).1⟩
  | error err =>
    rw [hall] at hresult
    cases hresult

end GlobalCatalogDeltaEntry

end Infinity.Wal
