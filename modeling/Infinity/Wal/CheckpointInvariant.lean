import Infinity.Wal.CheckpointFiles

/-! # The invariant of checkpoints

Between two effects the log directory and the catalog directory are in one of a few shapes. This
module states them and shows what the steps outside of checkpoints make of them: a flushed entry, a
swap of the log, a transaction that reaches the global delta entry.

* `LogInv`: the log still has every entry behind the deletions.
* `CatalogInv`: the shapes that the catalog directory goes through during a checkpoint.
-/

namespace Infinity.Wal

open Foundations List

/-! ## A longer history -/

section Growth

variable {history : List ℕ} {t n a b : ℕ}

theorem upTo_concat (h : n < t) : upTo (history ++ [t]) n = upTo history n := by
  rw [upTo, filter_append, filter_cons_of_neg (by simpa using h)]
  exact append_nil _

theorem between_concat (h : b < t) : between (history ++ [t]) a b = between history a b := by
  rw [between, filter_append, filter_cons_of_neg (by simp; omega)]
  exact append_nil _

theorem between_self : between history a a = [] := by
  rw [between, filter_eq_nil_iff]
  intro t _
  simp

theorem Chain.concat {files : List CatalogFile} (h : Chain history a files b) :
    b < t → Chain (history ++ [t]) a files b := by
  induction h with
  | nil => exact fun _ => .nil
  | @snoc files b c _ hlt ih =>
    intro ht
    have hfile : between (history ++ [t]) b c = between history b c := between_concat ht
    rw [← hfile]
    exact .snoc (ih (hlt.trans ht)) hlt

/-- The next transaction of the history is all that comes after the last one up to it. -/
theorem between_find (hs : history.Pairwise (· < ·)) (h : history.find? (a < ·) = some t) :
    between history a t = [t] ∧ a < t := by
  obtain ⟨hat, before, after, hsplit, hbefore⟩ := find?_eq_some_iff_append.mp h
  have hlt : a < t := by simpa using hat
  rw [hsplit] at hs ⊢
  have hafter : ∀ u ∈ after, t < u := (pairwise_cons.mp (pairwise_append.mp hs).2.1).1
  have hfirst : before.filter (fun u => a < u ∧ u ≤ t) = [] := by
    rw [filter_eq_nil_iff]
    intro u hu
    have := hbefore u hu
    simp at this ⊢
    omega
  have hlast : after.filter (fun u => a < u ∧ u ≤ t) = [] := by
    rw [filter_eq_nil_iff]
    intro u hu
    have := hafter u hu
    simp
    omega
  refine ⟨?_, hlt⟩
  rw [between, filter_append, filter_cons_of_pos (by simpa using hlt), hfirst, hlast, nil_append]

end Growth

/-! ## The log -/

/-- What holds of the log. -/
structure LogInv (wal : WalDir) (flushed : List Rec) (maxCommitTs newest reach : ℕ) : Prop where
  ordered : Ordered flushed
  ordered_le : ∀ e ∈ flushed, e.ts ≤ maxCommitTs
  entries : Ordered wal.entries
  entries_le : ∀ e ∈ wal.entries, e.ts ≤ maxCommitTs
  kept : wal.entries.filter (fun e => reach < e.ts) = flushed.filter fun e => reach < e.ts
  swapped : NewestFirst wal.swapped
  swapped_le : ∀ w ∈ wal.swapped, w.maxCommitTs ≤ maxCommitTs ∧ ∀ e ∈ w.entries,
    e.ts ≤ w.maxCommitTs
  swapped_lt : ∀ w ∈ wal.swapped, ∀ e ∈ wal.walLog.getD [], w.maxCommitTs < e.ts
  last : ∃ older ts newer, flushed = older ++ .checkpoint ts newest :: newer ∧ newest < ts ∧
    ∀ e ∈ newer, e.maxCommitTs? = none

namespace LogInv

variable {wal : WalDir} {flushed : List Rec} {maxCommitTs newest reach : ℕ} {e : Rec}

theorem ordered_concat {entries : List Rec} (h : Ordered entries)
    (hlt : ∀ e' ∈ entries, e'.ts < e.ts) : Ordered (entries ++ [e]) := by
  refine pairwise_append.mpr ⟨h, pairwise_singleton _ _, ?_⟩
  intro a ha b hb
  rw [mem_singleton.mp hb]
  exact hlt a ha

section

variable (h : LogInv wal flushed maxCommitTs newest reach) {log : List Rec}
include h

/-- The flush of an entry, whose checkpoint command becomes the newest one if it has any. -/
theorem flush (hlog : wal.walLog = some log) (hlt : maxCommitTs < e.ts) {newest' : ℕ}
    (hnewest : e.maxCommitTs? = none ∧ newest' = newest ∨ ∃ ts, e = .checkpoint ts newest' ∧
    newest' < ts) :
    LogInv { wal with walLog := some (log ++ [e]) } (flushed ++ [e]) e.ts newest' reach := by
  have hentries : WalDir.entries { wal with walLog := some (log ++ [e]) } = wal.entries ++ [e] := by
    simp only [WalDir.entries, hlog, Option.getD_some, append_assoc]
  have hbefore : ∀ e' ∈ flushed, e'.ts < e.ts := fun e' he' => (h.ordered_le e' he').trans_lt hlt
  have hbefore' : ∀ e' ∈ wal.entries, e'.ts < e.ts :=
    fun e' he' => (h.entries_le e' he').trans_lt hlt
  constructor
  · exact ordered_concat h.ordered hbefore
  · simpa [or_imp, forall_and] using fun e' he' => (hbefore e' he').le
  · rw [hentries]
    exact ordered_concat h.entries hbefore'
  · rw [hentries]
    simpa [or_imp, forall_and] using fun e' he' => (hbefore' e' he').le
  · rw [hentries, filter_append, filter_append, h.kept]
  · exact h.swapped
  · exact fun w hw => ⟨(h.swapped_le w hw).1.trans hlt.le, (h.swapped_le w hw).2⟩
  · intro w hw e' he'
    rcases mem_append.mp he' with he' | he'
    · exact h.swapped_lt w hw e' (by rw [hlog]; exact he')
    · rw [mem_singleton.mp he']
      exact (h.swapped_le w hw).1.trans_lt hlt
  · rcases hnewest with ⟨hnone, rfl⟩ | ⟨ts, rfl, hm⟩
    · obtain ⟨older, ts, newer, hsplit, hts, hnewer⟩ := h.last
      refine ⟨older, ts, newer ++ [e], ?_, hts, ?_⟩
      · rw [hsplit, append_assoc, cons_append]
      · simpa [or_imp, forall_and] using ⟨hnewer, hnone⟩
    · exact ⟨flushed, ts, [], rfl, hm, by simp⟩

theorem swapRename (hlog : wal.walLog = some (e :: log)) :
    LogInv ⟨none, ⟨maxCommitTs, e :: log⟩ :: wal.swapped⟩ flushed maxCommitTs newest reach := by
  have hentries : WalDir.entries ⟨none, ⟨maxCommitTs, e :: log⟩ :: wal.swapped⟩ = wal.entries := by
    simp [WalDir.entries, hlog, flatMap_append]
  have hin : ∀ e' ∈ e :: log, e'.ts ≤ maxCommitTs := by
    intro e' he'
    refine h.entries_le e' (mem_append_right _ ?_)
    rw [hlog]
    exact he'
  constructor
  · exact h.ordered
  · exact h.ordered_le
  · rw [hentries]
    exact h.entries
  · rw [hentries]
    exact h.entries_le
  · rw [hentries]
    exact h.kept
  · refine pairwise_cons.mpr ⟨fun w hw => ?_, h.swapped⟩
    exact (h.swapped_lt w hw e (by rw [hlog]; exact .head _)).trans_le (hin e (.head _))
  · intro w hw
    rcases mem_cons.mp hw with rfl | hw
    · exact ⟨le_rfl, hin⟩
    · exact h.swapped_le w hw
  · simp
  · exact h.last

theorem swapCreate (hlog : wal.walLog = none) :
    LogInv { wal with walLog := some [] } flushed maxCommitTs newest reach := by
  have hentries : WalDir.entries { wal with walLog := some [] } = wal.entries := by
    simp only [WalDir.entries, hlog, Option.getD_some, Option.getD_none]
  refine ⟨h.ordered, h.ordered_le, ?_, ?_, ?_, h.swapped, h.swapped_le, ?_, h.last⟩
  · rw [hentries]
    exact h.entries
  · rw [hentries]
    exact h.entries_le
  · rw [hentries]
    exact h.kept
  · simp

theorem raise {reach' : ℕ} (hle : reach ≤ reach') : LogInv wal flushed maxCommitTs newest reach' :=
  { h with kept := kept_mono hle h.kept }

end

/-- The entries of the files that a condition keeps, if the others have nothing to show. -/
theorem filter_flatMap_filter {q : WalFile → Bool} {p : Rec → Bool} : ∀ {files : List WalFile},
    (∀ w ∈ files, q w = false → w.entries.filter p = []) →
    ((files.filter q).flatMap WalFile.entries).filter p = (files.flatMap WalFile.entries).filter p
  | [], _ => rfl
  | w :: files, h => by
    have ih : ((files.filter q).flatMap WalFile.entries).filter p =
        (files.flatMap WalFile.entries).filter p :=
      filter_flatMap_filter fun w' hw' => h w' (.tail _ hw')
    rw [flatMap_cons, filter_append, ← ih]
    cases hq : q w with
    | true => rw [filter_cons_of_pos hq, flatMap_cons, filter_append]
    | false => rw [filter_cons_of_neg (by simp [hq]), h w (.head _) hq, nil_append]

/-- The deletion of a swapped file, all of whose entries are at or before its number. -/
theorem deleteWal (h : LogInv wal flushed maxCommitTs newest reach) (n : ℕ) :
    LogInv { wal with swapped := wal.swapped.filter (·.maxCommitTs ≠ n) } flushed maxCommitTs newest
    (max reach n) := by
  have hsub : (WalDir.entries
      { wal with swapped := wal.swapped.filter (·.maxCommitTs ≠ n) }).Sublist wal.entries := by
    simp only [WalDir.entries, ← filter_reverse]
    exact (filter_sublist.flatMap _).append_right _
  have hraise := h.raise (le_max_left reach n)
  refine ⟨h.ordered, h.ordered_le, h.entries.sublist hsub, ?_, ?_, h.swapped.filter _, ?_, ?_,
    h.last⟩
  · exact fun e he => h.entries_le e (hsub.mem he)
  · rw [← hraise.kept]
    simp only [WalDir.entries, filter_append, ← filter_reverse]
    congr 1
    refine filter_flatMap_filter fun w hw hn => ?_
    have hle := (h.swapped_le w (mem_reverse.mp hw)).2
    rw [filter_eq_nil_iff]
    intro e he
    have := hle e he
    simp at hn ⊢
    omega
  · exact fun w hw => h.swapped_le w (mem_of_mem_filter hw)
  · exact fun w hw => h.swapped_lt w (mem_of_mem_filter hw)

end LogInv

/-! ## The catalog directory -/

/-- What the catalog files depend on. -/
structure View where
  history : List ℕ
  newest : ℕ
  reach : ℕ
  catalog : CatalogDir
  delta : GlobalDelta
  lastCkpTs : ℕ
  lastFullCkpTs : ℕ

def Sys.view (s : Sys) : View where
  history := s.history
  newest := s.newest
  reach := s.reach
  catalog := s.catalog
  delta := s.delta
  lastCkpTs := s.lastCkpTs
  lastFullCkpTs := s.lastFullCkpTs

def fullFile (history : List ℕ) (n : ℕ) : CatalogFile := ⟨n, some (upTo history n)⟩

/-- The last checkpoint is the last one flushed. -/
structure Current (v : View) : Prop where
  fulls : v.catalog.fulls = [fullFile v.history v.lastFullCkpTs]
  deltas : Chain v.history v.lastFullCkpTs v.catalog.deltas v.newest
  ckp_eq : v.lastCkpTs = v.newest
  ops : v.delta.pickFlushEntry = between v.history v.newest v.delta.maxCommitTs

/-- The delta file of a checkpoint is created and nothing is written to it. -/
structure DeltaOpen (v : View) (m : ℕ) : Prop where
  fulls : v.catalog.fulls = [fullFile v.history v.lastFullCkpTs]
  deltas : ∃ deltas, v.catalog.deltas = deltas ++ [⟨m, none⟩] ∧
    Chain v.history v.lastFullCkpTs deltas v.newest
  lt : v.newest < m
  max_eq : m = v.delta.maxCommitTs
  ops : v.delta.ops = []

/-- The delta file of a checkpoint is written. -/
structure DeltaSaved (v : View) (m : ℕ) : Prop where
  fulls : v.catalog.fulls = [fullFile v.history v.lastFullCkpTs]
  deltas : ∃ deltas, v.catalog.deltas = deltas ++ [⟨m, some (between v.history v.newest m)⟩] ∧
    Chain v.history v.lastFullCkpTs deltas v.newest
  lt : v.newest < m
  le : m ≤ v.delta.maxCommitTs
  ckp_eq : v.lastCkpTs = m
  ops : v.delta.pickFlushEntry = between v.history m v.delta.maxCommitTs

/-- The full catalog of a checkpoint is there beside the one before it. -/
structure FullSaved (v : View) (n m : ℕ) : Prop where
  fulls : v.catalog.fulls = [fullFile v.history n, fullFile v.history m]
  deltas : Chain v.history n v.catalog.deltas v.newest
  lt : n < m
  le : v.newest ≤ m
  max_eq : m = v.delta.maxCommitTs
  ckp_eq : v.lastCkpTs = m
  ops : v.delta.pickFlushEntry = between v.history m v.delta.maxCommitTs

/-- The full catalog of a checkpoint is the only one. -/
structure FullAlone (v : View) (m : ℕ) : Prop where
  fulls : v.catalog.fulls = [fullFile v.history m]
  deltas : ∀ f ∈ v.catalog.deltas, f.maxCommitTs ≤ m
  le : v.newest ≤ m
  le_max : m ≤ v.delta.maxCommitTs
  le_reach : m ≤ v.reach
  ckp_eq : v.lastCkpTs = m
  full_eq : v.lastFullCkpTs = m
  ops : v.delta.pickFlushEntry = between v.history m v.delta.maxCommitTs

def Running (v : View) : Bool → ℕ → Stage → Prop
  | false, m, .save => Current v ∧ m = v.delta.maxCommitTs ∧ v.newest < m
  | false, m, .write ops => DeltaOpen v m ∧ ops = between v.history v.newest m
  | false, m, .recycleWal => DeltaSaved v m
  | true, m, .save => Current v ∧ m = v.delta.maxCommitTs ∧ v.lastFullCkpTs < m
  | true, m, .rename => Current v ∧ m = v.delta.maxCommitTs ∧ v.lastFullCkpTs < m ∧
      v.catalog.temp = some (fullFile v.history m)
  | true, m, .recycleWal => FullSaved v v.lastFullCkpTs m
  | true, m, .recycleCatalog => v.lastFullCkpTs = m ∧ ((∃ n, FullSaved v n m) ∨ FullAlone v m)
  | _, _, _ => False

def CatalogInv (v : View) (unlogged : List ℕ) : Option Checkpoint → Prop
  | some c => unlogged = [] ∧ Running v c.full c.maxCommitTs c.stage
  | none =>
    (unlogged = [] ∧ Current v) ∨
      ∃ m, unlogged = [m] ∧ (DeltaSaved v m ∨ FullAlone v m ∧ v.catalog.deltas = [])

/-- The catalog files give back the catalog at the newest checkpoint. -/
def Attaches (v : View) : Prop := v.catalog.attach v.newest = .ok (upTo v.history v.newest)

section Attach

variable {v : View} {m n : ℕ} (hs : v.history.Pairwise (· < ·))

include hs in
/-- A full catalog, a chain of deltas and perhaps one more delta. -/
theorem attach_newest {deltas newer : List CatalogFile}
    (hfulls : v.catalog.fulls = [fullFile v.history n])
    (hdeltas : v.catalog.deltas = deltas ++ newer) (hchain : Chain v.history n deltas v.newest)
    (hnewer : newer = [] ∨ ∃ f, newer = [f] ∧ v.newest < f.maxCommitTs) : Attaches v := by
  have hlater : ∀ f ∈ newer, v.newest < f.maxCommitTs := by
    rcases hnewer with rfl | ⟨f, rfl, hf⟩
    · exact nofun
    · simpa using hf
  have hone : v.catalog.fulls = [⟨n, some (upTo v.history n)⟩] ++ [] := hfulls
  refine attach_chain hs hone ?_ nofun hdeltas ?_ hlater hchain
  · rw [hfulls]
    exact oldestFirst_singleton _
  · rw [hdeltas]
    refine oldestFirst_append.mpr ⟨hchain.oldestFirst, ?_, ?_⟩
    · rcases hnewer with rfl | ⟨f, rfl, -⟩
      · exact .nil
      · exact oldestFirst_singleton f
    · exact fun f hf f' hf' => (hchain.mem f hf).2.trans_lt (hlater f' hf')

include hs

theorem Current.attach (h : Current v) : Attaches v :=
  attach_newest hs h.fulls (append_nil _).symm h.deltas (.inl rfl)

theorem DeltaOpen.attach (h : DeltaOpen v m) : Attaches v := by
  obtain ⟨deltas, hdeltas, hchain⟩ := h.deltas
  exact attach_newest hs h.fulls hdeltas hchain (.inr ⟨_, rfl, h.lt⟩)

theorem DeltaSaved.attach (h : DeltaSaved v m) : Attaches v := by
  obtain ⟨deltas, hdeltas, hchain⟩ := h.deltas
  exact attach_newest hs h.fulls hdeltas hchain (.inr ⟨_, rfl, h.lt⟩)

theorem FullSaved.attach (h : FullSaved v n m) : Attaches v := by
  have hsorted : OldestFirst v.catalog.fulls := by
    rw [h.fulls]
    exact pairwise_pair.mpr h.lt
  rcases h.le.lt_or_eq with hlt | heq
  · have hfulls : v.catalog.fulls = [⟨n, some (upTo v.history n)⟩] ++ [fullFile v.history m] :=
      h.fulls
    exact attach_chain hs hfulls hsorted (by simpa [fullFile] using hlt) (append_nil _).symm
      h.deltas.oldestFirst nofun h.deltas
  · have hfulls :
        v.catalog.fulls = [fullFile v.history n] ++
        [⟨v.newest, some (upTo v.history v.newest)⟩] := by
      rw [h.fulls, heq]
      rfl
    exact attach_full hfulls hsorted fun f hf => (h.deltas.mem f hf).2

omit hs in
theorem FullAlone.attach (h : FullAlone v m) (hcovered : v.reach ≤ v.newest) : Attaches v := by
  have heq : m = v.newest := le_antisymm (h.le_reach.trans hcovered) h.le
  have hfulls : v.catalog.fulls = [] ++ [⟨v.newest, some (upTo v.history v.newest)⟩] := by
    rw [h.fulls, heq]
    rfl
  refine attach_full hfulls ?_ fun f hf => heq ▸ h.deltas f hf
  rw [h.fulls]
  exact oldestFirst_singleton _

/-- **The catalog of the last flushed checkpoint is read back** if the deletions are covered. -/
theorem CatalogInv.attach {unlogged : List ℕ} : ∀ {c : Option Checkpoint}, CatalogInv v unlogged c →
    v.reach ≤ v.newest → Attaches v
  | none, .inl h, _ => h.2.attach hs
  | none, .inr ⟨_, _, .inl h⟩, _ => h.attach hs
  | none, .inr ⟨_, _, .inr h⟩, hcovered => h.1.attach hcovered
  | some ⟨false, _, .save⟩, h, _ => h.2.1.attach hs
  | some ⟨false, _, .write _⟩, h, _ => h.2.1.attach hs
  | some ⟨false, _, .recycleWal⟩, h, _ => DeltaSaved.attach hs h.2
  | some ⟨true, _, .save⟩, h, _ => h.2.1.attach hs
  | some ⟨true, _, .rename⟩, h, _ => h.2.1.attach hs
  | some ⟨true, _, .recycleWal⟩, h, _ => FullSaved.attach hs h.2
  | some ⟨true, _, .recycleCatalog⟩, ⟨_, _, .inl ⟨_, h⟩⟩, _ => h.attach hs
  | some ⟨true, _, .recycleCatalog⟩, ⟨_, _, .inr h⟩, hcovered => h.attach hcovered

end Attach

/-! ## A transaction is flushed -/

section Commit

variable {v : View} {m n t : ℕ} {history : List ℕ}

theorem fullFile_concat (h : n < t) : fullFile (history ++ [t]) n = fullFile history n := by
  rw [fullFile, fullFile, upTo_concat h]

theorem fulls_concat (h : n < t) : [fullFile history n] = [fullFile (history ++ [t]) n] := by
  rw [fullFile_concat h]

def View.commit (v : View) (t : ℕ) : View := { v with history := v.history ++ [t] }

variable (hmax : v.delta.maxCommitTs < t)

include hmax

theorem Current.commit (h : Current v) (hle : v.newest ≤ v.delta.maxCommitTs) :
    Current (v.commit t) := by
  have hn := h.deltas.le
  refine ⟨?_, h.deltas.concat (by omega), h.ckp_eq, ?_⟩
  · exact h.fulls.trans (fulls_concat (by omega))
  · exact h.ops.trans (between_concat hmax).symm

theorem DeltaOpen.commit (h : DeltaOpen v m) : DeltaOpen (v.commit t) m := by
  obtain ⟨deltas, hdeltas, hchain⟩ := h.deltas
  have hn := hchain.le
  have hm := h.max_eq
  have hlt := h.lt
  refine ⟨?_, ⟨deltas, hdeltas, hchain.concat (by omega)⟩, hlt, hm, h.ops⟩
  exact h.fulls.trans (fulls_concat (by omega))

theorem DeltaSaved.commit (h : DeltaSaved v m) : DeltaSaved (v.commit t) m := by
  obtain ⟨deltas, hdeltas, hchain⟩ := h.deltas
  have hn := hchain.le
  have hm := h.le
  have hlt := h.lt
  refine ⟨?_, ⟨deltas, ?_, hchain.concat (by omega)⟩, hlt, hm, h.ckp_eq, ?_⟩
  · exact h.fulls.trans (fulls_concat (by omega))
  · exact hdeltas.trans (by rw [View.commit, between_concat (by omega)])
  · exact h.ops.trans (between_concat hmax).symm

theorem FullSaved.commit (h : FullSaved v n m) : FullSaved (v.commit t) n m := by
  have hm := h.max_eq
  have hlt := h.lt
  have hle := h.le
  refine ⟨?_, h.deltas.concat (by omega), hlt, hle, hm, h.ckp_eq, ?_⟩
  · exact h.fulls.trans
      (by rw [View.commit, fullFile_concat (by omega), fullFile_concat (by omega)])
  · exact h.ops.trans (between_concat hmax).symm

theorem FullAlone.commit (h : FullAlone v m) : FullAlone (v.commit t) m := by
  have hm := h.le_max
  refine ⟨?_, h.deltas, h.le, hm, h.le_reach, h.ckp_eq, h.full_eq, ?_⟩
  · exact h.fulls.trans (fulls_concat (by omega))
  · exact h.ops.trans (between_concat hmax).symm

theorem CatalogInv.commit {unlogged : List ℕ} (hle : v.newest ≤ v.delta.maxCommitTs) :
    ∀ {c : Option Checkpoint}, CatalogInv v unlogged c → CatalogInv (v.commit t) unlogged c
  | none, .inl h => .inl ⟨h.1, h.2.commit hmax hle⟩
  | none, .inr ⟨m, hm, .inl h⟩ => .inr ⟨m, hm, .inl (h.commit hmax)⟩
  | none, .inr ⟨m, hm, .inr h⟩ => .inr ⟨m, hm, .inr ⟨h.1.commit hmax, h.2⟩⟩
  | some ⟨false, _, .save⟩, h => ⟨h.1, h.2.1.commit hmax hle, h.2.2⟩
  | some ⟨false, m, .write ops⟩, h => by
    have hm : m = v.delta.maxCommitTs := h.2.1.max_eq
    refine ⟨h.1, h.2.1.commit hmax, h.2.2.trans ?_⟩
    exact (between_concat (hm ▸ hmax)).symm
  | some ⟨false, _, .recycleWal⟩, h => ⟨h.1, .commit hmax h.2⟩
  | some ⟨true, _, .save⟩, h => ⟨h.1, h.2.1.commit hmax hle, h.2.2⟩
  | some ⟨true, m, .rename⟩, h => by
    have hm : m = v.delta.maxCommitTs := h.2.2.1
    refine ⟨h.1, h.2.1.commit hmax hle, h.2.2.1, h.2.2.2.1, h.2.2.2.2.trans ?_⟩
    rw [View.commit, fullFile_concat (hm ▸ hmax)]
  | some ⟨true, _, .recycleWal⟩, h => ⟨h.1, .commit hmax h.2⟩
  | some ⟨true, _, .recycleCatalog⟩, ⟨h, heq, .inl ⟨n, hn⟩⟩ => ⟨h, heq, .inl ⟨n, hn.commit hmax⟩⟩
  | some ⟨true, _, .recycleCatalog⟩, ⟨h, heq, .inr hn⟩ => ⟨h, heq, .inr (hn.commit hmax)⟩

end Commit

/-! ## A transaction reaches the global delta entry -/

section AddDelta

variable {v : View} {m t : ℕ}

/-- The view with one more transaction in the global delta entry. -/
def View.addDelta (v : View) (t : ℕ) : View :=
  { v with delta := ⟨v.delta.ops ++ [t], t, v.delta.lastFullCkpTs⟩ }

theorem pickFlushEntry_concat {g : GlobalDelta} (h : g.lastFullCkpTs < t) :
    GlobalDelta.pickFlushEntry ⟨g.ops ++ [t], t, g.lastFullCkpTs⟩ = g.pickFlushEntry ++ [t] := by
  simp [GlobalDelta.pickFlushEntry, h]

/-- The time stamps are in order. -/
structure Bounds (v : View) : Prop where
  newest_le : v.newest ≤ v.delta.maxCommitTs
  full_le : v.delta.lastFullCkpTs ≤ v.delta.maxCommitTs
  ops_le : ∀ u ∈ v.delta.ops, u ≤ v.delta.maxCommitTs

variable (hs : v.history.Pairwise (· < ·)) (hb : Bounds v)
  (hfind : v.history.find? (v.delta.maxCommitTs < ·) = some t)

include hs hb hfind

theorem pickFlushEntry_addDelta {c : ℕ} (hc : c ≤ v.delta.maxCommitTs)
    (hops : v.delta.pickFlushEntry = between v.history c v.delta.maxCommitTs) :
    (v.addDelta t).delta.pickFlushEntry = between v.history c t := by
  obtain ⟨hnext, hlt⟩ := between_find hs hfind
  have hfull : v.delta.lastFullCkpTs < t := hb.full_le.trans_lt hlt
  calc (v.addDelta t).delta.pickFlushEntry = v.delta.pickFlushEntry ++ [t] :=
    pickFlushEntry_concat hfull
    _ = between v.history c v.delta.maxCommitTs ++ between v.history v.delta.maxCommitTs t := by
        rw [hops, hnext]
    _ = between v.history c t := between_append_between hs hc hlt.le

theorem Bounds.addDelta : Bounds (v.addDelta t) := by
  obtain ⟨-, hlt⟩ := between_find hs hfind
  refine ⟨hb.newest_le.trans hlt.le, hb.full_le.trans hlt.le, ?_⟩
  intro u hu
  rcases mem_append.mp hu with hu | hu
  · exact (hb.ops_le u hu).trans hlt.le
  · exact (mem_singleton.mp hu).le

theorem CatalogInv.addDelta {unlogged : List ℕ} (h : CatalogInv v unlogged none) :
    CatalogInv (v.addDelta t) unlogged none := by
  obtain ⟨-, hlt⟩ := between_find hs hfind
  rcases h with ⟨hu, h⟩ | ⟨m, hu, h | ⟨h, hnil⟩⟩
  · exact .inl ⟨hu, h.fulls, h.deltas, h.ckp_eq,
      pickFlushEntry_addDelta hs hb hfind hb.newest_le h.ops⟩
  · refine .inr ⟨m, hu, .inl ⟨h.fulls, h.deltas, h.lt, h.le.trans hlt.le, h.ckp_eq, ?_⟩⟩
    exact pickFlushEntry_addDelta hs hb hfind h.le h.ops
  · refine .inr ⟨m, hu, .inr ⟨⟨h.fulls, h.deltas, h.le, h.le_max.trans hlt.le, h.le_reach, h.ckp_eq,
      h.full_eq, ?_⟩, hnil⟩⟩
    exact pickFlushEntry_addDelta hs hb hfind h.le_max h.ops

end AddDelta

end Infinity.Wal
