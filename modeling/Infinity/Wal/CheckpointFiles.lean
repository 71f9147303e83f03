import Infinity.Foundations.SortedFilter
import Infinity.Wal.Checkpoint

/-! # What recovery makes of the files

The log directory is read back as its entries in order (`WalDir.entries`), and `recover` returns the
last checkpoint command with the entries that it does not cover. The catalog directory is read back
as one full catalog and a chain of deltas that ends at the time stamp of that command.

* `attach_chain`, `attach_full`: the catalog that recovery starts from, in the two situations that
  the catalog directory can be in.
-/

namespace Infinity.Wal

open Foundations Infinity.Parser List Option Bool

/-! ## The log -/

def WalDir.entries (d : WalDir) : List Rec :=
  d.swapped.reverse.flatMap WalFile.entries ++ d.walLog.getD []

/-- The order in which the swapped files are listed in the model. -/
def NewestFirst (files : List WalFile) : Prop :=
  files.Pairwise fun a b => b.maxCommitTs < a.maxCommitTs

theorem logEvents_clean (files : List (List Rec)) :
    logEvents (files.map fun entries => (⟨entries, none⟩ : LogFile Rec)) =
      files.reverse.flatten.reverse.map some := by
  rw [logEvents_of_clean (by simp), events, List.flatMap_map, List.reverse_flatten,
    List.map_flatten]
  simp only [List.reverse_reverse, List.map_reverse, LogFile.events, LogFile.entryEvents,
    List.flatMap_def, List.map_map, Function.comp_def]

theorem WalDir.logEvents_walList {d : WalDir} (h : NewestFirst d.swapped) :
    logEvents (d.walList.map fun entries => (⟨entries, none⟩ : LogFile Rec)) =
      d.entries.reverse.map some := by
  have hsort : d.swapped.insertionSort (fun a b => b.maxCommitTs ≤ a.maxCommitTs) = d.swapped :=
    Pairwise.insertionSort_eq (h.imp fun hlt => hlt.le)
  rw [logEvents_clean, walList, hsort, entries, reverse_append, flatten_append, ← map_reverse,
    ← flatMap_def]
  cases d.walLog <;> simp

theorem Rec.commitTs_eq (e : Rec) : commitTs e = e.ts := rfl

theorem uncovered_map_some (m : ℕ) : ∀ entries : List Rec,
    uncovered m (entries.map some) = some (entries.takeWhile fun e => m < e.ts)
  | [] => rfl
  | e :: entries => by
    rw [map_cons, uncovered, uncovered_map_some m entries, takeWhile_cons, Rec.commitTs_eq]
    by_cases h : m < e.ts
    · rw [if_pos h, if_pos (decide_eq_true h)]
      rfl
    · rw [if_neg h, if_neg (by simpa using h)]

/-- The order of the log. -/
def Ordered (entries : List Rec) : Prop := entries.Pairwise fun a b => a.ts < b.ts

theorem upClosed_ts (m : ℕ) : UpClosed (fun a b : Rec => a.ts < b.ts) fun e => m < e.ts := by
  intro a b hab ha
  simp only [decide_eq_true_eq] at ha ⊢
  omega

/-- **Recovery of a log without damage**: the last checkpoint command and what it does not cover. -/
theorem recover_entries {files : List (LogFile Rec)} {older newer : List Rec} {ts m : ℕ}
    (hevents : logEvents files = (older ++ .checkpoint ts m :: newer).reverse.map some)
    (hnewer : ∀ e ∈ newer, e.maxCommitTs? = none) (holder : Ordered older) (hts : ts ≠ 0) :
    recover files = .ok (some (m, older.filter (fun e => m < e.ts) ++ newer)) := by
  have hckp : (newer.reverse.map some).any isCheckpointEvent = false := by
    rw [List.any_eq_false]
    intro x hx
    obtain ⟨e, he, rfl⟩ := mem_map.mp hx
    have hnone : checkpointTs e = none := hnewer e (mem_reverse.mp he)
    simp [isCheckpointEvent, isCheckPoint, hnone]
  have hsplit : logEvents files =
      newer.reverse.map some ++ some (.checkpoint ts m) :: older.reverse.map some := by
    rw [hevents]
    simp only [reverse_append, reverse_cons, map_append, map_cons, append_assoc, singleton_append]
  have hlatest : latestCheckpoint (logEvents files) =
      some (.checkpoint ts m) :: older.reverse.map some := by
    rw [hsplit, latestCheckpoint_append hckp]
    rfl
  have hnew : newerEvents (logEvents files) = newer.reverse.map some := by
    rw [hsplit, newerEvents_append hckp]
    exact append_nil _
  have hcut : gapCut (newer.reverse.map some) = newer.reverse.map some :=
      gapCut_eq_self fun x hx => by
      obtain ⟨e, -, rfl⟩ := mem_map.mp hx
      rfl
  have hids : (newer.reverse.map some).filterMap id = newer.reverse := by
    rw [filterMap_map]
    exact filterMap_some
  have htake := rtakeWhile_eq_filter (upClosed_ts m) holder
  rw [recover_of_checkpoint hlatest rfl hts, hnew, hcut, hids, uncovered_map_some]
  simp only [map_some, getD_some, reverse_append, reverse_reverse]
  rw [← htake, rtakeWhile]

/-! ## The catalogs -/

def upTo (history : List ℕ) (n : ℕ) : List ℕ := history.filter (· ≤ n)

def between (history : List ℕ) (a b : ℕ) : List ℕ := history.filter fun t => a < t ∧ t ≤ b

section History

variable {history : List ℕ} (hs : history.Pairwise (· < ·)) {a b c : ℕ}

include hs

theorem filter_split {q : ℕ → Bool} : history.filter (fun t => decide (t ≤ b) && q t) ++
      history.filter (fun t => decide (b < t) && q t) = history.filter q := by
  have hup : UpClosed (· < ·) fun t => decide (b < t) := by
    intro x y hxy hx
    simp only [decide_eq_true_eq] at hx ⊢
    omega
  have hsplit := filter_append_filter hup (hs.filter q)
  rw [List.filter_filter, List.filter_filter] at hsplit
  simpa only [← decide_not, not_lt] using hsplit

theorem upTo_append_between (hab : a ≤ b) :
    upTo history a ++ between history a b = upTo history b := by
  rw [upTo, upTo, between, ← filter_split hs (b := a) (q := fun t => decide (t ≤ b))]
  congr 1
  · refine filter_congr fun t _ => ?_
    rw [← decide_and, decide_eq_decide]
    omega
  · refine filter_congr fun t _ => ?_
    rw [← decide_and]

theorem between_append_between (hab : a ≤ b) (hbc : b ≤ c) :
    between history a b ++ between history b c = between history a c := by
  rw [between, between, between, ← filter_split hs (b := b) (q := fun t => decide (a < t ∧ t ≤ c))]
  congr 1
  all_goals
    refine filter_congr fun t _ => ?_
    rw [← decide_and, decide_eq_decide]
    omega

end History

/-- Delta files that follow each other from one time stamp to another. -/
inductive Chain (history : List ℕ) (a : ℕ) : List CatalogFile → ℕ → Prop where
  | nil : Chain history a [] a
  | snoc {files : List CatalogFile} {b c : ℕ} : Chain history a files b → b < c →
      Chain history a (files ++ [⟨c, some (between history b c)⟩]) c

/-- The order in which catalog files are listed in the model. -/
def OldestFirst (files : List CatalogFile) : Prop :=
  files.Pairwise fun a b => a.maxCommitTs < b.maxCommitTs

theorem oldestFirst_append {files files' : List CatalogFile} : OldestFirst (files ++ files') ↔
    OldestFirst files ∧ OldestFirst files' ∧
      ∀ f ∈ files, ∀ f' ∈ files', f.maxCommitTs < f'.maxCommitTs := pairwise_append

theorem oldestFirst_singleton (f : CatalogFile) : OldestFirst [f] := pairwise_singleton _ f

namespace Chain

variable {history : List ℕ} {a b : ℕ} {files : List CatalogFile}

section

variable (h : Chain history a files b)
include h

theorem le : a ≤ b := by
  induction h with
  | nil => exact le_rfl
  | snoc _ hlt ih => exact ih.trans hlt.le

theorem mem : ∀ f ∈ files, a < f.maxCommitTs ∧ f.maxCommitTs ≤ b := by
  induction h with
  | nil => exact nofun
  | snoc hc hlt ih =>
    intro f hf
    rcases mem_append.mp hf with hf | hf
    · exact ⟨(ih f hf).1, (ih f hf).2.trans hlt.le⟩
    · rw [mem_singleton.mp hf]
      exact ⟨hc.le.trans_lt hlt, le_rfl⟩

theorem oldestFirst : OldestFirst files := by
  induction h with
  | nil => exact .nil
  | snoc hc hlt ih =>
    refine oldestFirst_append.mpr ⟨ih, oldestFirst_singleton _, ?_⟩
    intro f hf f' hf'
    rw [mem_singleton.mp hf']
    exact (hc.mem f hf).2.trans_lt hlt

/-- What the files of a chain reflect together. -/
theorem load (hs : history.Pairwise (· < ·)) :
    ∃ parts, files.mapM CatalogFile.txns = some parts ∧ parts.flatten = between history a b := by
  induction h with
  | nil =>
    refine ⟨[], rfl, ?_⟩
    rw [between, eq_comm, flatten_nil, filter_eq_nil_iff]
    intro t _
    simp
  | @snoc files b c hc hlt ih =>
    obtain ⟨parts, hparts, hflat⟩ := ih
    refine ⟨parts ++ [between history b c], ?_, ?_⟩
    · rw [mapM_append, hparts]
      rfl
    · rw [flatten_append, hflat, flatten_singleton, between_append_between hs hc.le hlt.le]

end

end Chain

theorem sortFiles_eq {files : List CatalogFile} (h : OldestFirst files) : sortFiles files = files :=
  Pairwise.insertionSort_eq (h.imp fun hlt => hlt.le)

theorem upClosed_maxCommitTs (m : ℕ) :
    UpClosed (fun a b : CatalogFile => a.maxCommitTs < b.maxCommitTs) fun f =>
    m < f.maxCommitTs := by
  intro a b hab ha
  simp only [decide_eq_true_eq] at ha ⊢
  omega

/-- The files that are not newer than a checkpoint, of a list that newer files end. -/
theorem rdropWhile_newer {older newer : List CatalogFile} {m : ℕ}
    (hs : OldestFirst (older ++ newer)) (holder : ∀ f ∈ older, f.maxCommitTs ≤ m)
    (hnewer : ∀ f ∈ newer, m < f.maxCommitTs) :
    (sortFiles (older ++ newer)).rdropWhile (fun f => m < f.maxCommitTs) = older := by
  rw [sortFiles_eq hs, rdropWhile_eq_filter (upClosed_maxCommitTs m) hs, filter_append,
    filter_eq_self.mpr (by simpa using holder), filter_eq_nil_iff.mpr (by simpa using hnewer),
    append_nil]

variable {history : List ℕ} {m : ℕ} {d : CatalogDir} {entries : List Rec}

/-- **A full catalog and a chain of deltas** up to the checkpoint are read back, whatever newer
files there are. -/
theorem attach_chain {n : ℕ} {newerFulls deltas newerDeltas : List CatalogFile}
    (hs : history.Pairwise (· < ·)) (hfulls : d.fulls = [⟨n, some (upTo history n)⟩] ++ newerFulls)
    (hofulls : OldestFirst d.fulls) (hnewerFulls : ∀ f ∈ newerFulls, m < f.maxCommitTs)
    (hdeltas : d.deltas = deltas ++ newerDeltas) (hodeltas : OldestFirst d.deltas)
    (hnewerDeltas : ∀ f ∈ newerDeltas, m < f.maxCommitTs) (hchain : Chain history n deltas m) :
    d.attach m = .ok (upTo history m) := by
  rw [hfulls] at hofulls
  rw [hdeltas] at hodeltas
  have hfull := rdropWhile_newer hofulls (by simpa using hchain.le) hnewerFulls
  have hdelta := rdropWhile_newer hodeltas (fun f hf => (hchain.mem f hf).2) hnewerDeltas
  have hdrop : deltas.dropWhile (fun f => f.maxCommitTs ≤ n) = deltas := by
    cases deltas with
    | nil => rfl
    | cons f deltas =>
      have hf := (hchain.mem f (.head _)).1
      exact dropWhile_cons_of_neg (by simpa using hf)
  obtain ⟨parts, hparts, hflat⟩ := hchain.load hs
  rw [CatalogDir.attach, CatalogDir.parseValidCheckpointFilenames, hfulls, hdeltas, hfull, hdelta]
  simp only [getLast?_singleton, map_some, hdrop, loadFromFiles, hparts, hflat,
    upTo_append_between hs hchain.le]

/-- **A full catalog of the checkpoint itself** is read back, whatever older files there are. -/
theorem attach_full {olderFulls : List CatalogFile}
    (hfulls : d.fulls = olderFulls ++ [⟨m, some (upTo history m)⟩]) (hofulls : OldestFirst d.fulls)
    (hdeltas : ∀ f ∈ d.deltas, f.maxCommitTs ≤ m) : d.attach m = .ok (upTo history m) := by
  have hle : ∀ f ∈ d.fulls, f.maxCommitTs ≤ m := by
    rw [hfulls] at hofulls ⊢
    intro f hf
    rcases mem_append.mp hf with hf | hf
    · exact ((oldestFirst_append.mp hofulls).2.2 f hf _ (.head _)).le
    · rw [mem_singleton.mp hf]
  have hfull : (sortFiles d.fulls).rdropWhile (fun f => m < f.maxCommitTs) = d.fulls := by
    have h : (sortFiles (d.fulls ++ [])).rdropWhile (fun f => m < f.maxCommitTs) = d.fulls :=
      rdropWhile_newer (by simpa using hofulls) hle nofun
    simpa using h
  have hdelta : ((sortFiles d.deltas).rdropWhile fun f => m < f.maxCommitTs).dropWhile
      (fun f => f.maxCommitTs ≤ m) = [] := by
    rw [dropWhile_eq_nil_iff]
    intro f hf
    have hmem := ( rdropWhile_prefix _ _).subset hf
    exact decide_eq_true (hdeltas f ((perm_insertionSort _ _).subset hmem))
  rw [CatalogDir.attach, CatalogDir.parseValidCheckpointFilenames, hfull, hfulls]
  simp only [getLast?_append, getLast?_singleton, Option.some_or, Option.map_some, hdelta,
    loadFromFiles, mapM_nil, Option.pure_def, flatten_nil, append_nil]

/-! ## Both together -/

theorem txns_append (entries entries' : List Rec) :
    txns (entries ++ entries') = txns entries ++ txns entries' := filterMap_append

theorem Rec.txn?_eq_some {e : Rec} {t : ℕ} (h : e.txn? = some t) : e.ts = t := by
  cases e with
  | commit ts => exact Option.some.inj h
  | checkpoint ts m => cases h

/-- The transactions of some entries by time stamp are some transactions by time stamp. -/
theorem txns_filter (p : ℕ → Bool) :
    txns (entries.filter fun e => p e.ts) = (txns entries).filter p := by
  rw [txns, txns, filterMap_filter, filter_filterMap]
  congr 1
  funext e
  cases e with
  | commit ts => rfl
  | checkpoint ts m => exact ite_self _

theorem pairwise_txns (h : Ordered entries) : (txns entries).Pairwise (· < ·) := by
  refine Pairwise.filterMap _ ?_ h
  intro e e' hlt t ht t' ht'
  rw [Rec.txn?_eq_some ht, Rec.txn?_eq_some ht'] at hlt
  exact hlt

theorem upTo_append_later (hs : history.Pairwise (· < ·)) :
    upTo history m ++ history.filter (m < ·) = history := by
  have h := filter_split hs (b := m) (q := fun _ => true)
  simpa only [upTo, Bool.and_true, filter_true] using h

theorem kept_mono {entries' : List Rec} {r r' : ℕ} (hle : r ≤ r')
    (h : entries.filter (fun e => r < e.ts) = entries'.filter fun e => r < e.ts) :
    entries.filter (fun e => r' < e.ts) = entries'.filter fun e => r' < e.ts := by
  have htwice : ∀ l : List Rec, l.filter (fun e => r' < e.ts) =
      (l.filter fun e => r < e.ts).filter fun e => r' < e.ts := by
    intro l
    rw [List.filter_filter]
    refine filter_congr fun e _ => ?_
    rw [← decide_and, decide_eq_decide]
    omega
  rw [htwice entries, h, ← htwice]

theorem filter_checkpoint {older newer : List Rec} {ts r : ℕ} (hr : r < ts)
    (hnewer : ∀ e ∈ newer, ts < e.ts) :
      (older ++ .checkpoint ts m :: newer).filter (fun e => r < e.ts) =
      older.filter (fun e => r < e.ts) ++ .checkpoint ts m :: newer := by
  have hall : (.checkpoint ts m :: newer).filter (fun e => r < e.ts) = .checkpoint ts m ::
      newer := by
    rw [filter_eq_self]
    intro e he
    rcases mem_cons.mp he with rfl | he
    · exact decide_eq_true hr
    · exact decide_eq_true (hr.trans (hnewer e he))
  rw [filter_append, hall]

/-- **Recovery reflects the flushed transactions** if the log still has the entries after some time
stamp, the last checkpoint command is not before it, and the catalog of that command is read
back. -/
theorem replayWalFile_eq {wal : WalDir} {flushed older newer : List Rec} {ts reach : ℕ}
    (hswapped : NewestFirst wal.swapped) (hentries : Ordered wal.entries)
    (hflushed : Ordered flushed)
    (hkept : wal.entries.filter (fun e => reach < e.ts) = flushed.filter fun e => reach < e.ts)
    (hsplit : flushed = older ++ .checkpoint ts m :: newer) (hlt : m < ts)
    (hnewer : ∀ e ∈ newer, e.maxCommitTs? = none) (hreach : reach ≤ m)
    (hattach : d.attach m = .ok (upTo (txns flushed) m)) :
    replayWalFile wal d = .ok (txns flushed) := by
  have hlater : ∀ e ∈ newer, ts < e.ts := by
    rw [hsplit] at hflushed
    exact (pairwise_cons.mp (pairwise_append.mp hflushed).2.1).1
  -- what is after `reach` has not changed, so the log ends like what was flushed
  have hlog := filter_append_filter (upClosed_ts reach) hentries
  rw [hkept, hsplit, filter_checkpoint (hreach.trans_lt hlt) hlater, ← append_assoc] at hlog
  generalize wal.entries.filter (fun e => !decide (reach < e.ts)) ++
    older.filter (fun e => reach < e.ts) = before at hlog
  have hordered : Ordered before := (pairwise_append.mp (hlog ▸ hentries)).1
  have hevents := WalDir.logEvents_walList hswapped
  rw [← hlog] at hevents
  have hrecover := recover_entries hevents hnewer hordered (Nat.ne_zero_of_lt hlt)
  -- the replayed entries are those of the log after the checkpoint's time stamp
  have hreplay :
      txns (before.filter (fun e => m < e.ts) ++ newer) = (txns flushed).filter (m < ·) := by
    have hmore := kept_mono hreach hkept
    rw [← hlog, filter_checkpoint hlt hlater] at hmore
    rw [← txns_filter, ← hmore, txns_append, txns_append]
    rfl
  have hphase3 : (before.filter (fun e => m < e.ts) ++ newer).any (fun e => e.ts < m) = false := by
    rw [List.any_eq_false]
    intro e he
    have hm : m < e.ts := by
      rcases mem_append.mp he with he | he
      · simpa using (mem_filter.mp he).2
      · exact hlt.trans (hlater e he)
    simpa using hm.le
  rw [replayWalFile, hrecover]
  simp only [bind, Except.bind, hattach, hphase3, hreplay, false_eq_true, if_false]
  rw [upTo_append_later (pairwise_txns hflushed)]

end Infinity.Wal
