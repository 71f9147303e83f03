import Mathlib

/-! # The store of a transaction (`TxnStore`, `TxnTableStore`)

A transaction keeps what it has changed until it commits: for each table the rows that it deletes,
by segment and block, and the indexes that it writes. `checkConflict` compares two stores. The
offsets of a block are compared by one pass over both lists, which relies on their order. Hash maps
are modelled by association lists whose keys are distinct.

* `TxnStore.mem_rowList`, `TxnStore.nodup_rowList`: the rows that are deleted at the commit.
* `TxnTableStore.checkConflict_iff_common`: when the stores of a table are compared exactly.
-/

namespace Infinity.Transactions

open List AList

/-- A row of a table. -/
structure Row where
  table : String
  segment : ℕ
  block : ℕ
  offset : ℕ
  deriving DecidableEq

/-- A map from segments and blocks to offsets, `delete_state_.rows_`. -/
abbrev DeleteRows := AList fun _ : ℕ => AList fun _ : ℕ => List ℕ

/-- `TxnTableStore`, as far as conflicts go. -/
structure TxnTableStore where
  indexStores : List String
  /-- The names of the indexes of `txn_indexes_`, which are created or dropped. -/
  indexes : List String
  rows : DeleteRows

/-- `TxnTableStore`. -/
def TxnTableStore.empty : TxnTableStore := ⟨[], [], ∅⟩

/-- `TxnStore`, as far as conflicts go. -/
structure TxnStore where
  tablesStore : AList fun _ : String => TxnTableStore
  /-- The names of the tables of `txn_tables_`, which are created or dropped. -/
  tables : List String

/-- The pass over the offsets of a block: `other` is what is left from position `j` on. -/
def mergeConflict : List ℕ → List ℕ → Bool
  | [], _ => false
  | offset :: offsets, other =>
    match other.dropWhile (· < offset) with
    | [] => false
    | o :: rest => if o = offset then true else mergeConflict offsets (o :: rest)

/-- `TxnTableStore::CheckConflict`. -/
def TxnTableStore.checkConflict (s other : TxnTableStore) : Bool :=
  s.indexStores.any (fun name => other.indexes.contains name) ||
      s.rows.entries.any fun ⟨segment, blocks⟩ =>
      match other.rows.lookup segment with
      | none => false
      | some otherBlocks => blocks.entries.any fun ⟨block, offsets⟩ =>
          match otherBlocks.lookup block with
          | none => false
          | some otherOffsets => mergeConflict offsets otherOffsets

/-- `TxnStore::CheckConflict`. -/
def TxnStore.checkConflict (s other : TxnStore) : Bool :=
  s.tablesStore.entries.any fun ⟨name, tableStore⟩ =>
    other.tables.contains name || match other.tablesStore.lookup name with
      | none => false
      | some otherStore => tableStore.checkConflict otherStore

/-! ## The rows of a store -/

namespace TxnTableStore

variable {s : TxnTableStore} {segment block : ℕ}

def offsets (s : TxnTableStore) (segment block : ℕ) : List ℕ :=
  (((s.rows.lookup segment).getD ∅).lookup block).getD []

theorem offsets_of_lookup {blocks : AList fun _ : ℕ => List ℕ} {offsets : List ℕ}
    (hs : s.rows.lookup segment = some blocks) (hb : blocks.lookup block = some offsets) :
    s.offsets segment block = offsets := by
  simp [TxnTableStore.offsets, hs, hb]

theorem exists_of_mem {x : ℕ} (h : x ∈ s.offsets segment block) :
      ∃ blocks, s.rows.lookup segment = some blocks ∧
      blocks.lookup block = some (s.offsets segment block) := by
  cases hs : s.rows.lookup segment with
  | none => simp [offsets, hs] at h
  | some blocks =>
    cases hb : blocks.lookup block with
    | none => simp [offsets, hs, hb] at h
    | some offsets => exact ⟨blocks, rfl, by rw [hb, offsets_of_lookup hs hb]⟩

def setOffsets (s : TxnTableStore) (segment block : ℕ) (offsets : List ℕ) : TxnTableStore :=
  { s with rows := s.rows.insert segment (((s.rows.lookup segment).getD ∅).insert block offsets) }

theorem offsets_setOffsets (offsets : List ℕ) (segment' block' : ℕ) :
    (s.setOffsets segment block offsets).offsets segment' block' =
      if segment' = segment ∧ block' = block then offsets else s.offsets segment' block' := by
  unfold TxnTableStore.offsets setOffsets
  by_cases hs : segment' = segment
  · subst hs
    by_cases hb : block' = block
    · subst hb
      simp
    · simp [hb, lookup_insert_ne hb]
  · simp [hs, lookup_insert_ne hs]

end TxnTableStore

open TxnTableStore

variable {s : TxnStore} {r : Row} {x : ℕ} {table : String}

namespace TxnStore

def offsets (s : TxnStore) (table : String) (segment block : ℕ) : List ℕ :=
  (((s.tablesStore.lookup table).bind (·.rows.lookup segment)).bind (·.lookup block)).getD []

def Deletes (s : TxnStore) (r : Row) : Prop := r.offset ∈ s.offsets r.table r.segment r.block

instance (s : TxnStore) (r : Row) : Decidable (s.Deletes r) := inferInstanceAs (Decidable (_ ∈ _))

/-- `TxnTableStore::Delete` for one row, in the store of its table. -/
def delete (s : TxnStore) (r : Row) : TxnStore :=
  let tableStore := (s.tablesStore.lookup r.table).getD .empty
  let blocks := (tableStore.rows.lookup r.segment).getD ∅
  let offsets := (blocks.lookup r.block).getD []
  let rows := tableStore.rows.insert r.segment (blocks.insert r.block (offsets ++ [r.offset]))
  ⟨s.tablesStore.insert r.table { tableStore with rows := rows }, s.tables⟩

def rowList (s : TxnStore) : List Row :=
  s.tablesStore.entries.flatMap fun t => t.2.rows.entries.flatMap fun g =>
    g.2.entries.flatMap fun b => b.2.map (⟨t.1, g.1, b.1, ·⟩)

def Ascending (s : TxnStore) : Prop :=
  ∀ table segment block, (s.offsets table segment block).Pairwise (· < ·)

theorem offsets_eq (segment block : ℕ) :
    s.offsets table segment block = ((s.tablesStore.lookup table).getD .empty).offsets segment
    block := by
  unfold offsets TxnTableStore.offsets
  cases s.tablesStore.lookup table with
  | none => rfl
  | some tableStore => cases hs : tableStore.rows.lookup segment <;> simp [hs]

theorem offsets_delete (segment block : ℕ) :
    (s.delete r).offsets table segment block =
      if table = r.table ∧ segment = r.segment ∧ block = r.block then
        s.offsets table segment block ++ [r.offset]
      else s.offsets table segment block := by
  let tableStore := (s.tablesStore.lookup r.table).getD .empty
  have hdelete : s.delete r = ⟨s.tablesStore.insert r.table (tableStore.setOffsets r.segment r.block
      (tableStore.offsets r.segment r.block ++ [r.offset])), s.tables⟩ := rfl
  rw [hdelete, offsets_eq, offsets_eq]
  by_cases ht : table = r.table
  · subst ht
    simp only [lookup_insert, Option.getD_some, offsets_setOffsets, true_and]
    split
    next h => rw [h.1, h.2]
    next => rfl
  · simp [ht, lookup_insert_ne ht]

/-- **What `Delete` adds** is the one row. -/
theorem deletes_delete (r r' : Row) : (s.delete r).Deletes r' ↔ s.Deletes r' ∨ r' = r := by
  obtain ⟨table, segment, block, offset⟩ := r
  obtain ⟨table', segment', block', offset'⟩ := r'
  rw [Deletes, Deletes, offsets_delete]
  split
  next h =>
    obtain ⟨rfl, rfl, rfl⟩ := h
    simp
  next h =>
    refine ⟨.inl, fun hor => hor.resolve_right ?_⟩
    rintro ⟨⟩
    exact h ⟨rfl, rfl, rfl⟩

theorem exists_of_deletes (h : s.Deletes r) :
      ∃ tableStore blocks, s.tablesStore.lookup r.table = some tableStore ∧
      tableStore.rows.lookup r.segment = some blocks ∧
      blocks.lookup r.block = some (s.offsets r.table r.segment r.block) := by
  rw [Deletes, offsets_eq] at h
  rw [offsets_eq]
  cases ht : s.tablesStore.lookup r.table with
  | none => simp [ht, TxnTableStore.empty, TxnTableStore.offsets] at h
  | some tableStore =>
    rw [ht] at h
    obtain ⟨blocks, hs, hb⟩ := exists_of_mem h
    exact ⟨tableStore, blocks, rfl, hs, hb⟩

theorem offsets_of_lookup {table : String} {segment block : ℕ} {tableStore : TxnTableStore}
    {blocks : AList fun _ : ℕ => List ℕ} {offsets : List ℕ}
    (ht : s.tablesStore.lookup table = some tableStore)
    (hs : tableStore.rows.lookup segment = some blocks) (hb : blocks.lookup block = some offsets) :
    s.offsets table segment block = offsets := by
  rw [offsets_eq, ht]
  exact TxnTableStore.offsets_of_lookup hs hb

theorem mem_rowList : r ∈ s.rowList ↔ s.Deletes r := by
  simp only [rowList, mem_flatMap, mem_map, Sigma.exists, ← mem_lookup_iff, Option.mem_def]
  constructor
  · rintro ⟨table, tableStore, ht, segment, blocks, hs, block, offsets, hb, offset, ho, rfl⟩
    rw [Deletes, offsets_of_lookup ht hs hb]
    exact ho
  · intro h
    obtain ⟨tableStore, blocks, ht, hs, hb⟩ := exists_of_deletes h
    exact ⟨_, tableStore, ht, _, blocks, hs, _, _, hb, r.offset, h, rfl⟩

/-- The rows of a map are distinct if those of each value are and carry its key. -/
theorem nodup_flatMap_entries {κ β : Type} [DecidableEq κ] (m : AList fun _ : κ => β)
    (key : Row → κ) {f : (Σ _ : κ, β) → List Row} (hkey : ∀ e, ∀ r ∈ f e, key r = e.1)
    (hnodup : ∀ e ∈ m.entries, (f e).Nodup) : (m.entries.flatMap f).Nodup := by
  rw [nodup_flatMap]
  refine ⟨hnodup, ?_⟩
  have hkeys : m.entries.Pairwise fun a b => a.1 ≠ b.1 := nodupKeys_iff_pairwise.mp m.nodupKeys
  refine hkeys.imp fun hne => ?_
  intro r hr hr'
  exact hne ((hkey _ r hr).symm.trans (hkey _ r hr'))

theorem nodup_rowList (h : s.Ascending) : s.rowList.Nodup := by
  refine nodup_flatMap_entries s.tablesStore Row.table ?_ fun t ht => ?_
  · intro t r hr
    simp only [mem_flatMap, mem_map] at hr
    obtain ⟨g, -, b, -, offset, -, rfl⟩ := hr
    rfl
  refine nodup_flatMap_entries t.2.rows Row.segment ?_ fun g hg => ?_
  · intro g r hr
    simp only [mem_flatMap, mem_map] at hr
    obtain ⟨b, -, offset, -, rfl⟩ := hr
    rfl
  refine nodup_flatMap_entries g.2 Row.block ?_ fun b hb => ?_
  · intro b r hr
    simp only [mem_map] at hr
    obtain ⟨offset, -, rfl⟩ := hr
    rfl
  have hoffsets :=
    offsets_of_lookup (mem_lookup_iff.mpr ht) (mem_lookup_iff.mpr hg) (mem_lookup_iff.mpr hb)
  have hascending := h t.1 g.1 b.1
  rw [hoffsets] at hascending
  refine (hascending.imp fun hlt => hlt.ne).map _ ?_
  intro a b hne heq
  exact hne (Row.mk.inj heq).2.2.2

theorem Ascending.delete (h : s.Ascending)
    (hr : ∀ offset ∈ s.offsets r.table r.segment r.block, offset < r.offset) :
    (s.delete r).Ascending := by
  intro table segment block
  rw [offsets_delete]
  split
  next heq =>
    obtain ⟨rfl, rfl, rfl⟩ := heq
    refine pairwise_append.mpr ⟨h _ _ _, pairwise_singleton _ _, ?_⟩
    intro a ha b hb
    rw [mem_singleton.mp hb]
    exact hr a ha
  · exact h _ _ _

end TxnStore

/-! ## Common rows -/

/-- The offset stands in the list with no greater one before it. -/
def IsRecord (x : ℕ) : List ℕ → Prop
  | [] => False
  | a :: offsets => a = x ∨ a ≤ x ∧ IsRecord x offsets

theorem IsRecord.mem {offsets : List ℕ} (h : IsRecord x offsets) : x ∈ offsets := by
  induction offsets with
  | nil => exact h.elim
  | cons a offsets ih =>
    rcases h with rfl | ⟨-, h⟩
    · exact mem_cons_self
    · exact mem_cons_of_mem a (ih h)

theorem isRecord_of_mem {offsets : List ℕ} (hasc : offsets.Pairwise (· < ·))
    (h : x ∈ offsets) : IsRecord x offsets := by
  induction offsets with
  | nil => cases h
  | cons a offsets ih =>
    obtain ⟨ha, hasc⟩ := pairwise_cons.mp hasc
    rcases mem_cons.mp h with rfl | h
    · exact .inl rfl
    · exact .inr ⟨(ha x h).le, ih hasc h⟩

/-- Smaller offsets at the front do not matter. -/
theorem isRecord_dropWhile {a : ℕ} (hax : a ≤ x) (offsets : List ℕ) :
    IsRecord x (offsets.dropWhile (· < a)) ↔ IsRecord x offsets := by
  induction offsets with
  | nil => rfl
  | cons b offsets ih =>
    rw [dropWhile_cons]
    split
    next hb =>
      have hlt : b < a := by simpa using hb
      simp only [ih, IsRecord, show b ≠ x by omega, show b ≤ x by omega, false_or, true_and]
    next => rfl

/-- **The pass finds the common offsets that no greater one comes before** in either list. -/
theorem mergeConflict_iff (offsets other : List ℕ) :
    mergeConflict offsets other ↔ ∃ x, IsRecord x offsets ∧ IsRecord x other := by
  induction offsets generalizing other with
  | nil => simp [mergeConflict, IsRecord]
  | cons a offsets ih =>
    have hfrom : (∃ x, IsRecord x (a :: offsets) ∧ IsRecord x other) ↔
        ∃ x, IsRecord x (a :: offsets) ∧ IsRecord x (other.dropWhile (· < a)) := by
      refine exists_congr fun x => and_congr_right fun hx => (isRecord_dropWhile ?_ other).symm
      rcases hx with rfl | ⟨hle, -⟩
      · exact le_rfl
      · exact hle
    rw [mergeConflict, hfrom]
    cases hdrop : other.dropWhile (· < a) with
    | nil => simp [IsRecord]
    | cons o rest =>
      have ho : a ≤ o := by simpa [hdrop] using head?_dropWhile_not (· < a) other
      dsimp only
      split
      next heq => exact iff_of_true rfl ⟨a, .inl rfl, .inl heq⟩
      next hne =>
        rw [ih]
        -- every offset that is left is above the first one of the list
        refine exists_congr fun x => and_congr_left fun hx => ?_
        have hox : o ≤ x := by
          rcases hx with rfl | ⟨hle, -⟩
          · exact le_rfl
          · exact hle
        simp only [IsRecord, show a ≠ x by omega, show a ≤ x by omega, false_or, true_and]

namespace TxnTableStore

variable {s other s' : TxnTableStore}

theorem checkConflict_of_merge {segment block : ℕ}
    (h : mergeConflict (s.offsets segment block) (other.offsets segment block)) :
    s.checkConflict other := by
  obtain ⟨x, hx, hx'⟩ := (mergeConflict_iff _ _).mp h
  obtain ⟨blocks, hs, hb⟩ := exists_of_mem hx.mem
  obtain ⟨blocks', hs', hb'⟩ := exists_of_mem hx'.mem
  rw [checkConflict, Bool.or_eq_true]
  right
  rw [any_eq_true]
  refine ⟨_, mem_lookup_iff.mp hs, ?_⟩
  simp only [hs', any_eq_true]
  refine ⟨_, mem_lookup_iff.mp hb, ?_⟩
  simpa only [hb'] using h

/-- `CheckConflict` without index changes, block by block. -/
theorem checkConflict_iff (hindex : s.indexStores = []) : s.checkConflict other ↔
    ∃ segment block, mergeConflict (s.offsets segment block) (other.offsets segment block) := by
  refine ⟨fun h => ?_, fun ⟨_, _, h⟩ => checkConflict_of_merge h⟩
  rw [checkConflict, hindex, any_nil, Bool.false_or, any_eq_true] at h
  obtain ⟨⟨segment, blocks⟩, hs, h⟩ := h
  dsimp only at h
  split at h
  · cases h
  next otherBlocks hother =>
    obtain ⟨⟨block, offsets⟩, hb, h⟩ := any_eq_true.mp h
    split at h
    · cases h
    next otherOffsets hother' =>
      refine ⟨segment, block, ?_⟩
      rwa [offsets_of_lookup (mem_lookup_iff.mpr hs) (mem_lookup_iff.mpr hb),
        offsets_of_lookup hother hother']

/-! ### Exact comparison -/

/-- `RowID`. -/
structure RowID where
  segmentId : ℕ
  segmentOffset : ℕ
  deriving DecidableEq

/-- `DEFAULT_BLOCK_CAPACITY`. -/
def blockCapacity : ℕ := 8192

def RowID.place (r : RowID) : ℕ × ℕ × ℕ :=
  (r.segmentId, r.segmentOffset / blockCapacity, r.segmentOffset % blockCapacity)

theorem RowID.place_injective : Function.Injective RowID.place := by
  rintro ⟨segment, offset⟩ ⟨segment', offset'⟩ h
  simp only [place, Prod.mk.injEq] at h
  rw [h.1, ← Nat.div_add_mod offset blockCapacity, h.2.1, h.2.2, Nat.div_add_mod]

/-- `TxnTableStore::Delete`: more offsets than rows of a block are an error. -/
def delete : TxnTableStore → List RowID → Option TxnTableStore
  | s, [] => some s
  | s, r :: rows =>
    let (segment, block, offset) := r.place
    let offsets := s.offsets segment block ++ [offset]
    if blockCapacity < offsets.length then none else (s.setOffsets segment block offsets).delete
      rows

theorem mem_offsets_delete {rows : List RowID} (h : s.delete rows = some s') :
    s'.indexStores = s.indexStores ∧ ∀ segment block x, x ∈ s'.offsets segment block ↔
      x ∈ s.offsets segment block ∨ (segment, block, x) ∈ rows.map RowID.place := by
  induction rows generalizing s with
  | nil =>
    cases h
    simp
  | cons r rows ih =>
    obtain ⟨-, h⟩ := Option.ite_none_left_eq_some.mp h
    obtain ⟨hindex, hmem⟩ := ih h
    refine ⟨hindex, fun segment block x => ?_⟩
    rw [hmem, offsets_setOffsets, map_cons, mem_cons]
    split
    next heq => simp [heq.1, heq.2, RowID.place, or_assoc]
    next hne =>
      have hother : (segment, block, x) ≠ r.place :=
        fun heq => hne ⟨congrArg Prod.fst heq, congrArg (·.2.1) heq⟩
      simp only [hother, false_or]

theorem mem_offsets_calls {calls : List (List RowID)} (h : calls.foldlM delete s = some s') :
    s'.indexStores = s.indexStores ∧ ∀ segment block x, x ∈ s'.offsets segment block ↔
      x ∈ s.offsets segment block ∨ (segment, block, x) ∈ calls.flatten.map RowID.place := by
  induction calls generalizing s with
  | nil =>
    cases h
    simp
  | cons rows calls ih =>
    obtain ⟨t, ht, h⟩ := Option.bind_eq_some_iff.mp h
    obtain ⟨hindex, hmem⟩ := ih h
    obtain ⟨hindex', hmem'⟩ := mem_offsets_delete ht
    refine ⟨hindex.trans hindex', fun segment block x => ?_⟩
    rw [hmem, hmem', flatten_cons, map_append, mem_append, or_assoc]

/-- **The stores of two transactions are compared exactly** if, whenever they have a row in common,
some common offset of a block comes after no greater one in either store. The comparison is
symmetric. -/
theorem checkConflict_iff_common {calls calls' : List (List RowID)}
    (h : calls.foldlM delete .empty = some s) (h' : calls'.foldlM delete .empty = some other) :
    ((s.checkConflict other = true ↔ ∃ r ∈ calls.flatten, r ∈ calls'.flatten) ↔
      ((∃ r ∈ calls.flatten, r ∈ calls'.flatten) → ∃ segment block x,
        IsRecord x (s.offsets segment block) ∧ IsRecord x (other.offsets segment block))) ∧
      s.checkConflict other = other.checkConflict s := by
  obtain ⟨hindex, hmem⟩ := mem_offsets_calls h
  obtain ⟨hindex', hmem'⟩ := mem_offsets_calls h'
  constructor
  · rw [checkConflict_iff hindex]
    simp only [mergeConflict_iff]
    refine ⟨fun hiff => hiff.mpr, fun hfound => ⟨?_, hfound⟩⟩
    rintro ⟨segment, block, x, hx, hx'⟩
    have hin := (hmem segment block x).mp hx.mem
    have hin' := (hmem' segment block x).mp hx'.mem
    simp only [show empty.offsets segment block = [] from rfl, not_mem_nil, false_or, mem_map]
      at hin hin'
    obtain ⟨r, hr, hplace⟩ := hin
    obtain ⟨r', hr', hplace'⟩ := hin'
    obtain rfl := RowID.place_injective (hplace.trans hplace'.symm)
    exact ⟨r, hr, hr'⟩
  · rw [Bool.eq_iff_iff, checkConflict_iff hindex, checkConflict_iff hindex']
    simp only [mergeConflict_iff, and_comm]

/-- One transaction deletes the rows 2 and 1, another the row 1. -/
theorem checkConflict_falling : ∃ s other,
    [[⟨0, 2⟩, ⟨0, 1⟩]].foldlM delete .empty = some s ∧ [[⟨0, 1⟩]].foldlM delete .empty =
      some other ∧ s.checkConflict other = false :=
  ⟨_, _, rfl, rfl, rfl⟩

/-- In the other order the common row is found. -/
theorem checkConflict_rising : ∃ s other,
    [[⟨0, 1⟩, ⟨0, 2⟩]].foldlM delete .empty = some s ∧ [[⟨0, 1⟩]].foldlM delete .empty =
      some other ∧ s.checkConflict other = true :=
  ⟨_, _, rfl, rfl,
      ((@checkConflict_iff_common _ _ [[⟨0, 1⟩, ⟨0, 2⟩]] [[⟨0, 1⟩]] rfl rfl).1.mpr fun _ =>
    ⟨0, 0, 1, Or.inl rfl, Or.inl rfl⟩).mpr ⟨⟨0, 1⟩, by decide, by decide⟩⟩

end TxnTableStore

namespace TxnStore

/-- **A common row is a conflict**, if the offsets of both stores are in ascending order. -/
theorem checkConflict_of_common {other : TxnStore} (hs : s.Ascending) (hother : other.Ascending)
    (h : s.Deletes r) (h' : other.Deletes r) : s.checkConflict other := by
  obtain ⟨tableStore, -, ht, -⟩ := exists_of_deletes h
  obtain ⟨tableStore', -, ht', -⟩ := exists_of_deletes h'
  rw [checkConflict, any_eq_true]
  refine ⟨_, mem_lookup_iff.mp ht, ?_⟩
  simp only [ht', Bool.or_eq_true]
  right
  have hrecord := isRecord_of_mem (hs r.table r.segment r.block) h
  have hrecord' := isRecord_of_mem (hother r.table r.segment r.block) h'
  rw [offsets_eq, ht] at hrecord
  rw [offsets_eq, ht'] at hrecord'
  exact checkConflict_of_merge ((mergeConflict_iff _ _).mpr ⟨r.offset, hrecord, hrecord'⟩)

end TxnStore

end Infinity.Transactions
