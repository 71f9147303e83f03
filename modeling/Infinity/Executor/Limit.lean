import Mathlib

/-! # LIMIT and OFFSET (`PhysicalLimit`, `PhysicalMergeLimit`)

A counter carries what is left of the offset and of the limit from call to call. With several tasks
the limit is taken in the tasks, which share a counter for `limit + offset` rows, and on top of them
in `PhysicalMergeLimit`.

* `limitExact_iff`: the plans are exact without an offset, and if no row is asked for.
* `limit_not_exact`: a batch that the offset skips as a whole is not skipped.
* `limitCalls_of_first`: with an offset, which first batches make the calls exact.
* `limitCalls_sound`: with any offset there are never too many rows, and those of the input keep
  their order.
-/

namespace Infinity.Executor

open List

/-- The rows of some data blocks. -/
abbrev DataBlocks (ρ : Type*) := List (List ρ)

variable {ρ : Type*}

/-- `UnSyncCounter`. -/
structure LimitCounter where
  offset : ℕ
  limit : ℕ
  deriving DecidableEq

namespace LimitCounter

/-- `UnSyncCounter::Offset`. The result `row_count - 1` is a `size_t`. -/
def takeOffset (c : LimitCounter) (rowCount : ℕ) : ℕ × LimitCounter :=
  (if c.offset ≤ rowCount then c.offset else if rowCount = 0 then 2 ^ 64 - 1 else rowCount - 1,
    { c with offset := c.offset - rowCount })

/-- `UnSyncCounter::Limit`. -/
def takeLimit (c : LimitCounter) (rowCount : ℕ) : ℕ × LimitCounter :=
  (min c.limit rowCount, { c with limit := c.limit - rowCount })

end LimitCounter

/-- The first loop of `PhysicalLimit::Execute`: the offset in the block at `block_start_idx` and the
blocks from there on. Without a `break` that index is 0. -/
def skipBlocks (all : DataBlocks ρ) : DataBlocks ρ → ℕ → ℕ × DataBlocks ρ
  | [], offset => (offset, all)
  | block :: blocks, offset =>
    if block = [] then skipBlocks all blocks offset
    else if block.length < offset then skipBlocks all blocks (offset - block.length)
    else (offset, block :: blocks)

/-- `DataBlock::AppendWith` into a new block, which has room for a whole one. Only the room is
checked: rows after the end of the block are copied too, and are none of its rows. -/
def appendWith (block : List ρ) (start count : ℕ) : List (Option ρ) :=
  (range count).map fun i => block[start + i]?

/-- The second loop of `PhysicalLimit::Execute`. -/
def copyBlocks : DataBlocks ρ → ℕ → ℕ → DataBlocks (Option ρ)
  | [], _, _ => []
  | block :: blocks, offset, limit =>
    if block = [] then copyBlocks blocks offset limit
    else appendWith block offset (min limit block.length) ::
      if limit ≤ block.length then [] else copyBlocks blocks 0 (limit - block.length)

/-- `PhysicalLimit::Execute` on a counter, which `PhysicalMergeLimit::Execute` calls too. -/
def limitExecute (c : LimitCounter) (inputBlocks : DataBlocks ρ) :
    DataBlocks (Option ρ) × LimitCounter :=
  let rowCount := inputBlocks.flatten.length
  let (offset, c) := c.takeOffset rowCount
  if offset = rowCount then ([], c)
  else
    let (limit, c) := c.takeLimit
      (if offset ≤ rowCount then rowCount - offset else 2 ^ 64 + rowCount - offset)
    let (offset, blocks) := skipBlocks inputBlocks inputBlocks offset
    (copyBlocks blocks offset limit, c)

/-- The rows that some calls put out, one call for each batch of blocks. -/
def limitCalls : LimitCounter → List (DataBlocks ρ) → List (Option ρ) × LimitCounter
  | c, [] => ([], c)
  | c, batch :: batches =>
    let (out, c) := limitExecute c batch
    let (rows, c) := limitCalls c batches
    (out.flatten ++ rows, c)

/-- What a plan puts out when its tasks have executed some batches and have completed: there are no
others, or the limit is over. Every row that is copied is a row of its block. -/
structure LimitExact (ρ : Type*) (offset limit : ℕ) : Prop where
  single (done rest : List (DataBlocks ρ)) : ∃ (rows : List ρ) (c : LimitCounter),
    limitCalls ⟨offset, limit⟩ done = (rows.map some, c) ∧
      (rest = [] ∨ c.limit = 0 → rows = ((done ++ rest).flatten.flatten.drop offset).take limit)
  /-- The output of the tasks arrives at the top in any order, cut into any blocks and batches. -/
  parallel (done rest : List (DataBlocks ρ)) : ∃ (rows : List ρ) (c : LimitCounter),
    limitCalls ⟨0, limit + offset⟩ done = (rows.map some, c) ∧
      (rest = [] ∨ c.limit = 0 → ∀ arrived : List (DataBlocks ρ),
        arrived.flatten.flatten.Perm rows → ∃ (merged : List ρ) (c' : LimitCounter),
          limitCalls ⟨offset, limit⟩ arrived = (merged.map some, c') ∧
          merged.length = min (done ++ rest).flatten.flatten.length (offset + limit) - offset ∧
          merged.Subperm (done ++ rest).flatten.flatten)

/-! ## The rows that are put out -/

variable {offset limit : ℕ} {blocks : DataBlocks ρ} {c : LimitCounter}

/-- The rows of the block, and then as many as are missing. -/
theorem appendWith_eq (block : List ρ) (start count : ℕ) : appendWith block start count =
    ((block.drop start).take count).map some ++
      replicate (count - (block.length - start)) none := by
  refine ext_getElem? fun i => ?_
  simp only [appendWith, getElem?_map, getElem?_append, length_map, length_take,
    length_drop, getElem?_replicate, getElem?_take, getElem?_drop]
  grind

theorem appendWith_inside {block : List ρ} {start count : ℕ} (h : start + count ≤ block.length) :
    appendWith block start count = ((block.drop start).take count).map some := by
  rw [appendWith_eq, Nat.sub_eq_zero_of_le (by omega), replicate_zero, append_nil]

theorem copyBlocks_zero (limit : ℕ) :
    (copyBlocks blocks 0 limit).flatten = (blocks.flatten.take limit).map some := by
  induction blocks generalizing limit with
  | nil => rw [copyBlocks, flatten_nil, flatten_nil, take_nil, map_nil]
  | cons block blocks ih =>
    have hcopied : appendWith block 0 (min limit block.length) = (block.take limit).map some := by
      rw [appendWith_inside (by omega), drop_zero, ← take_eq_take_min]
    rw [copyBlocks, hcopied, flatten_cons, take_append]
    split_ifs with hempty hle
    · simpa [hempty] using ih limit
    · simp [Nat.sub_eq_zero_of_le hle]
    · rw [flatten_cons, ih, map_append]

/-- The two loops, if nothing is skipped or nothing copied. -/
theorem copyBlocks_skipBlocks (all blocks : DataBlocks ρ) (hor : offset = 0 ∨ limit = 0)
    (h : offset < blocks.flatten.length ∨ blocks.flatten = [] ∧ all.flatten = []) :
    (copyBlocks (skipBlocks all blocks offset).2 (skipBlocks all blocks offset).1 limit).flatten =
      (blocks.flatten.take limit).map some := by
  induction blocks generalizing offset with
  | nil => induction all <;> simp_all [copyBlocks, skipBlocks]
  | cons block blocks ih =>
    unfold skipBlocks
    split
    next hempty =>
      subst hempty
      exact ih hor h
    next hne =>
      have hlt : offset < block.length + blocks.flatten.length := by simp_all
      split
      next hskip =>
        obtain rfl : limit = 0 := by omega
        exact ih (.inr rfl) (.inl (by omega))
      next hle =>
        rcases hor with rfl | rfl
        · exact copyBlocks_zero _
        · simp [copyBlocks, appendWith, hne]

/-- **A call** puts out the first rows, as many as the limit allows. -/
theorem limitExecute_spec (hor : c.offset = 0 ∨ c.limit = 0) (blocks : DataBlocks ρ) :
    ∃ out, limitExecute c blocks =
        (out, ⟨c.offset - blocks.flatten.length, c.limit - blocks.flatten.length⟩) ∧
      out.flatten = (blocks.flatten.take c.limit).map some := by
  obtain ⟨start, hoffset⟩ : ∃ start, c.takeOffset blocks.flatten.length =
    (start, ⟨c.offset - blocks.flatten.length, c.limit⟩) := ⟨_, rfl⟩
  obtain ⟨hor, hlt⟩ : (start = 0 ∨ c.limit = 0) ∧
      (start ≤ blocks.flatten.length ∨ blocks.flatten = []) := by
    grind [LimitCounter.takeOffset]
  simp only [limitExecute, hoffset, LimitCounter.takeLimit]
  split
  next heq => exact ⟨[], by grind, by grind⟩
  next hne =>
    obtain ⟨n, hn⟩ : ∃ n, n = if start ≤ blocks.flatten.length then blocks.flatten.length - start
      else 2 ^ 64 + blocks.flatten.length - start := ⟨_, rfl⟩
    obtain ⟨hmin, hsub⟩ : min c.limit n = min c.limit blocks.flatten.length ∧
        c.limit - n = c.limit - blocks.flatten.length := by
      rcases hor with rfl | hzero
      · simp [hn]
      · simp [hzero]
    have hor : start = 0 ∨ min c.limit blocks.flatten.length = 0 := by omega
    have hflat := copyBlocks_skipBlocks blocks blocks hor (by grind)
    rw [← hn, hmin, hsub]
    exact ⟨_, rfl, by rw [hflat, ← take_eq_take_min]⟩

theorem limitCalls_spec (hor : c.offset = 0 ∨ c.limit = 0) (batches : List (DataBlocks ρ)) :
    ∃ c', limitCalls c batches = ((batches.flatten.flatten.take c.limit).map some, c') ∧
      c'.limit = c.limit - batches.flatten.flatten.length := by
  induction batches generalizing c with
  | nil => exact ⟨c, by simp [limitCalls], rfl⟩
  | cons batch batches ih =>
    obtain ⟨out, hout, hflat⟩ := limitExecute_spec hor batch
    obtain ⟨c', hcalls, hlim⟩ :=
      @ih ⟨c.offset - batch.flatten.length, c.limit - batch.flatten.length⟩ (by grind)
    rw [flatten_cons, flatten_append, take_append, length_append, ← Nat.sub_sub, map_append]
    refine ⟨c', ?_, hlim⟩
    simp only [limitCalls, hout, hcalls, hflat]

theorem limitExact_of (hor : offset = 0 ∨ limit = 0) : LimitExact ρ offset limit where
  single done rest := by
    obtain ⟨c, hcalls, hlim⟩ := limitCalls_spec (c := ⟨offset, limit⟩) hor done
    refine ⟨_, c, hcalls, fun hend => ?_⟩
    grind
  parallel done rest := by
    obtain ⟨c, hcalls, hlim⟩ := limitCalls_spec (c := ⟨0, limit + offset⟩) (.inl rfl) done
    refine ⟨_, c, hcalls, fun hend arrived harrived => ?_⟩
    obtain ⟨c', hcalls', -⟩ := limitCalls_spec (c := ⟨offset, limit⟩) hor arrived
    have hlen := harrived.length_eq
    rw [flatten_append, flatten_append]
    refine ⟨_, c', hcalls', by grind, ?_⟩
    exact (take_sublist _ _).subperm.trans
      (harrived.subperm.trans ((take_sublist _ _).trans (sublist_append_left _ _)).subperm)

/-- Every call with an empty batch takes a row off the limit while the offset is not used up. -/
theorem limitCalls_empty (h : 0 < offset) :
    limitCalls ⟨offset, limit⟩ (replicate limit ([] : DataBlocks ρ)) = ([], ⟨offset, 0⟩) := by
  induction limit with
  | zero => rfl
  | succ limit ih =>
    have hcall : limitExecute ⟨offset, limit + 1⟩ ([] : DataBlocks ρ) = ([], ⟨offset, limit⟩) := by
      grind [limitExecute, LimitCounter.takeOffset, LimitCounter.takeLimit, skipBlocks, copyBlocks]
    simp [replicate_succ, limitCalls, hcall, ih]

/-- **The plans are exact** if there is no offset or no row is asked for. -/
theorem limitExact_iff [Inhabited ρ] (offset limit : ℕ) :
    LimitExact ρ offset limit ↔ offset = 0 ∨ limit = 0 := by
  refine ⟨fun h => ?_, limitExact_of⟩
  by_contra hnot
  obtain ⟨rows, c, hcalls, hrows⟩ :=
    h.single (replicate limit []) [[replicate (offset + limit) default]]
  rw [limitCalls_empty (by omega)] at hcalls
  obtain ⟨hnil, rfl⟩ := Prod.mk.inj hcalls
  have hlen := congrArg length (hrows (.inr rfl))
  rw [map_eq_nil_iff.mp hnil.symm] at hlen
  simp at hlen
  omega

/-- One row and then two, with `LIMIT 1 OFFSET 2`: the row at position 2 is asked for. -/
theorem limit_not_exact : limitCalls ⟨2, 1⟩ [[[10]], [[11, 12]]] = ([some 10], ⟨0, 0⟩) ∧
    ([[[10]], [[11, 12]]].flatten.flatten.drop 2).take 1 = [12] := by
  decide

/-! ## First batches that are cut right -/

/-- The rows from the offset on that a batch has to put out lie in one block and do not begin it. -/
def CutInside (blocks : DataBlocks ρ) (offset limit : ℕ) : Prop :=
  ∃ before block after, blocks = before ++ block :: after ∧ before.flatten.length < offset ∧
    offset < before.flatten.length + block.length ∧
    min (offset + limit) blocks.flatten.length ≤ before.flatten.length + block.length

/-- The first loop stops in the block that the offset ends in, unless it ends between two. -/
theorem skipBlocks_append (all after : DataBlocks ρ) {before : DataBlocks ρ} {block : List ρ}
    (h : before.flatten.length < offset) (hle : offset ≤ before.flatten.length + block.length) :
    skipBlocks all (before ++ block :: after) offset =
      (offset - before.flatten.length, block :: after) := by
  induction before generalizing offset with
  | nil =>
    have hne : block ≠ [] := by grind
    simp_all [skipBlocks]
  | cons b before ih =>
    rw [flatten_cons, length_append] at h hle ⊢
    rw [cons_append, skipBlocks]
    split_ifs with hempty hlt
    · subst hempty
      simpa using ih (by simpa using h) (by simpa using hle)
    · rw [ih (by omega) (by omega), Nat.sub_sub]
    · omega

theorem limitExecute_cutInside (h : CutInside blocks offset limit) :
    ∃ out, limitExecute ⟨offset, limit⟩ blocks =
        (out, ⟨0, limit - (blocks.flatten.length - offset)⟩) ∧
      out.flatten = ((blocks.flatten.drop offset).take limit).map some := by
  obtain ⟨before, block, after, rfl, hbefore, hblock, hmin⟩ := h
  have hlen : (before ++ block :: after).flatten.length =
      before.flatten.length + block.length + after.flatten.length := by
    simp [Nat.add_assoc]
  rw [hlen] at hmin ⊢
  have hne : block ≠ [] := by grind
  have hskip := skipBlocks_append (before ++ block :: after) after hbefore
    (Nat.le_of_lt hblock)
  have hrows : (before ++ block :: after).flatten.drop offset =
      block.drop (offset - before.flatten.length) ++ after.flatten := by
    rw [flatten_append, flatten_cons, drop_append, drop_eq_nil_of_le (by omega), nil_append,
      drop_append_of_le_length (by omega)]
  -- the limit of the call leaves the copied range inside the block
  obtain ⟨n, hn⟩ : ∃ n, n = min limit (before.flatten.length + block.length +
    after.flatten.length - offset) := ⟨_, rfl⟩
  have hcopied : appendWith block (offset - before.flatten.length) (min n block.length) =
      (((before ++ block :: after).flatten.drop offset).take limit).map some := by
    have htake : min limit (block.drop (offset - before.flatten.length) ++ after.flatten).length =
        n := by
      rw [length_append, length_drop, hn]
      congr 1
      omega
    rw [appendWith_inside (by omega), hrows, take_eq_take_min (i := limit), htake,
      take_append_of_le_length (by rw [length_drop]; omega), Nat.min_eq_left (by omega)]
  refine ⟨[appendWith block (offset - before.flatten.length) (min n block.length)], ?_, ?_⟩
  · have hle : offset ≤ before.flatten.length + block.length + after.flatten.length := by omega
    simp only [limitExecute, LimitCounter.takeOffset, LimitCounter.takeLimit, hlen, if_pos hle]
    rw [if_neg (by omega), hskip]
    dsimp only
    rw [← hn, copyBlocks, if_neg hne, if_pos (by omega), Nat.sub_eq_zero_of_le hle]
  · rw [flatten_singleton, hcopied]

/-- **With an offset the calls are exact** if it ends with the first batch, or inside a block of it
that has all the rows asked for. -/
theorem limitCalls_of_first (batches : List (DataBlocks ρ))
    (h : offset = blocks.flatten.length ∨ CutInside blocks offset limit) :
    (limitCalls ⟨offset, limit⟩ (blocks :: batches)).1 =
      (((blocks :: batches).flatten.flatten.drop offset).take limit).map some := by
  obtain ⟨out, hout, hflat⟩ : ∃ out, limitExecute ⟨offset, limit⟩ blocks =
      (out, ⟨0, limit - (blocks.flatten.length - offset)⟩) ∧
        out.flatten = ((blocks.flatten.drop offset).take limit).map some := by
    rcases h with rfl | h
    · exact ⟨[], by simp [limitExecute, LimitCounter.takeOffset], by rw [drop_length]; simp⟩
    · exact limitExecute_cutInside h
  have hle : offset ≤ blocks.flatten.length := by
    rcases h with rfl | ⟨before, block, after, rfl, -, hlt, -⟩
    · exact Nat.le_refl _
    · rw [flatten_append, flatten_cons, length_append, length_append]
      omega
  obtain ⟨c', hcalls, -⟩ :=
    limitCalls_spec (c := ⟨0, limit - (blocks.flatten.length - offset)⟩) (.inl rfl) batches
  simp only [limitCalls, hout, hcalls, hflat]
  rw [flatten_cons, flatten_append, drop_append_of_le_length hle, take_append, length_drop,
    map_append]

/-- Rows 1 and 2 of a block of four, and row 2 of the next batch. -/
example : (limitCalls ⟨1, 2⟩ [[[10, 11, 12, 13]]]).1 = [some 11, some 12] ∧
    (limitCalls ⟨2, 3⟩ [[[10, 11]], [[12]]]).1 = [some 12] := by
  decide

/-! ## What holds with any offset -/

theorem copyBlocks_sound (blocks : DataBlocks ρ) (offset limit : ℕ) :
    (copyBlocks blocks offset limit).flatten.length ≤ limit ∧
      (copyBlocks blocks offset limit).flatten.reduceOption.Sublist blocks.flatten := by
  fun_induction copyBlocks blocks offset limit with
  | case1 => simp
  | case2 blocks offset limit ih => simpa using ih
  | case3 block blocks offset limit hne ih =>
    have hlen : (appendWith block offset (min limit block.length)).length =
      min limit block.length := by simp [appendWith]
    have hsub : (appendWith block offset (min limit block.length)).reduceOption.Sublist block := by
      rw [appendWith_eq, reduceOption_append, reduceOption_replicate_none, append_nil,
        reduceOption, filterMap_map]
      simpa using (take_sublist _ _).trans (drop_sublist offset block)
    rw [flatten_cons, flatten_cons, length_append, reduceOption_append, hlen]
    split
    · exact ⟨by simp, by simpa using hsub.trans (sublist_append_left _ _)⟩
    · exact ⟨by omega, hsub.append ih.2⟩

theorem skipBlocks_sublist {all : DataBlocks ρ} (h : blocks.flatten.Sublist all.flatten) :
    (skipBlocks all blocks offset).2.flatten.Sublist all.flatten := by
  fun_induction skipBlocks all blocks offset with
  | case1 => exact .refl _
  | case4 => exact h
  | case2 _ _ ih | case3 _ _ _ _ _ ih => exact ih ((sublist_append_right _ _).trans h)

/-- **Never more rows than the limit**, and those of the input in its order, none of them twice. -/
theorem limitCalls_sound (c : LimitCounter) (batches : List (DataBlocks ρ)) :
    (limitCalls c batches).1.length + (limitCalls c batches).2.limit ≤ c.limit ∧
      (limitCalls c batches).1.reduceOption.Sublist batches.flatten.flatten := by
  induction batches generalizing c with
  | nil => simp [limitCalls]
  | cons batch batches ih =>
    have hone : (limitExecute c batch).1.flatten.length + (limitExecute c batch).2.limit ≤ c.limit ∧
        (limitExecute c batch).1.flatten.reduceOption.Sublist batch.flatten := by
      unfold limitExecute
      simp only [LimitCounter.takeLimit]
      split
      · exact ⟨by simp [LimitCounter.takeOffset], by simp⟩
      · obtain ⟨hlen, hcopies⟩ := copyBlocks_sound
          (skipBlocks batch batch (c.takeOffset batch.flatten.length).1).2 _ _
        refine ⟨?_, hcopies.trans (skipBlocks_sublist (.refl _))⟩
        dsimp only
        have : (c.takeOffset batch.flatten.length).2.limit = c.limit := rfl
        omega
    obtain ⟨hle, hsub⟩ := ih (limitExecute c batch).2
    simp only [limitCalls, flatten_cons, flatten_append, length_append, reduceOption_append]
    exact ⟨by omega, hone.2.append hsub⟩

/-- One row after the offset, then three: a row after the end of the first block is put out, and the
last row is not. -/
example : (limitCalls ⟨1, 10⟩ [[[10, 11], [12, 13, 14]]]).1 =
    [some 11, none, some 12, some 13] := by
  decide

end Infinity.Executor
