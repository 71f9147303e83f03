import Infinity.Fst.Reader
import Infinity.Fst.Spine

/-! # The dictionary spells what was inserted

Keys that are inserted in increasing order are what the frames of the builder spell, in this order.
After `Finish` the root node spells them.

* `build_nil`, `build_eq`: the bytes of a dictionary, and the node under its root address.
-/

namespace Infinity.Fst

open Foundations List FstBuilder

section Keys

variable {p k : Bytes} {i : ℕ}

section

variable (hlt : p < k) (htake : p.take i = k.take i)
include hlt htake

/-- Two keys with common bytes compare as what is behind these. -/
theorem drop_lt_drop : p.drop i < k.drop i := by
  rw [← take_append_drop i p, ← take_append_drop i k, htake] at hlt
  by_contra hnot
  by_cases hback : k.drop i < p.drop i
  · exact Std.lt_irrefl (Std.lt_trans hlt (append_left_lt hback))
  · exact Std.lt_irrefl (Std.le_antisymm (Std.not_lt.mp hback) (Std.not_lt.mp hnot) ▸ hlt)

theorem length_ne_of_lt : i ≠ k.length := by
  rintro rfl
  have hdrop := drop_lt_drop hlt htake
  rw [drop_length] at hdrop
  exact not_lt_nil _ hdrop

theorem byte_lt_of_lt {b c : UInt8} (hb : k[i]? = some b) (hc : p[i]? = some c) (hne : c ≠ b) :
    c < b := by
  have hdrop := drop_lt_drop hlt htake
  obtain ⟨hik, rfl⟩ := List.getElem?_eq_some_iff.mp hb
  obtain ⟨hip, rfl⟩ := List.getElem?_eq_some_iff.mp hc
  rw [List.drop_eq_getElem_cons hik, List.drop_eq_getElem_cons hip] at hdrop
  rcases List.cons_lt_cons_iff.mp hdrop with hlt | ⟨heq, -⟩
  · exact hlt
  · exact absurd heq hne

end

end Keys

/-! ## Inserted keys -/

/-- The state of the builder after some keys were inserted. -/
structure Inserted (ty : UInt64) (builder : FstBuilder) (kvs : List (Bytes × UInt64)) : Prop where
  header : (new ty).writer.bytes <+: builder.writer.bytes
  valid : builder.writer.Valid
  spine : Spine builder.writer.bytes builder.unfinished kvs
  labels : builder.unfinished.labels = (kvs.getLast?.map Prod.fst).getD []
  top : builder.unfinished.topTrans = some []
  last : builder.last = []
  len : builder.len = kvs.length
  fresh : builder.unfinished.labels = [] → builder.writer.bytes = (new ty).writer.bytes

theorem length_header (ty : UInt64) : (new ty).writer.bytes.length = 16 := by
  show (leBytes 8 3 ++ leBytes 8 ty.toNat).length = 16
  rw [length_append, length_leBytes, length_leBytes]

theorem Inserted.new (ty : UInt64) : Inserted ty (.new ty) [] := by
  refine ⟨prefix_refl _, ⟨?_, .inl rfl, fun _ => .inl rfl⟩, .top .nil rfl, rfl, rfl, rfl, rfl,
    fun _ => rfl⟩
  rw [length_header]
  decide

variable {ty : UInt64} {builder : FstBuilder} {kvs : List (Bytes × UInt64)} {k : Bytes} {v : UInt64}
  {maskedChecksum : Bytes → ℕ}

/-- The empty key is the first. -/
theorem Inserted.insertOutput_nil (h : Inserted ty builder []) :
    Inserted ty (builder.insertOutput [] v) [([], v)] := by
  obtain ⟨u, r, hu, hlast, hbranches, hnil⟩ := h.spine.of_labels_nil h.labels
  have hr : r = [] := (append_eq_nil_iff.mp hnil.symm).2
  have htop := h.top
  rw [hu] at htop
  rw [hr] at hbranches
  have heq : builder.insertOutput [] v = { builder with
      len := 1, unfinished :=
          [{ u with node := { u.node with isFinal := true, finalOutput := v } }] } := by
    unfold insertOutput
    rw [if_pos rfl, hu]
    rfl
  rw [heq]
  refine ⟨h.header, h.valid, ?_, ?_, htop, h.last, rfl, fun _ => h.fresh h.labels⟩
  · exact .top (u := { u with node := { u.node with isFinal := true, finalOutput := v } })
      hbranches hlast
  · exact UnfinishedNodes.labels_cons_none hlast

section

variable (h : Inserted ty builder kvs) (hk : ∀ e ∈ kvs, e.1 < k)
include h hk

/-- The last key is smaller than the next, or there is none. -/
theorem Inserted.labels_lt (hne : k ≠ []) : builder.unfinished.labels < k := by
  rw [h.labels]
  cases hlast : kvs.getLast? with
  | none =>
    obtain ⟨b, bs, rfl⟩ := exists_cons_of_ne_nil hne
    exact nil_lt_cons b bs
  | some e => exact hk e (mem_of_getLast? hlast)

theorem Inserted.insertOutput_cons (hne : k ≠ []) :
    Inserted ty (builder.insertOutput k v) (kvs ++ [(k, v)]) := by
  have hlt := h.labels_lt hk hne
  have hcommon := h.spine.findCommonPrefix k v
  set found := builder.unfinished.findCommonPrefixAndSetOutput k v with hfound
  obtain ⟨us, out, i⟩ := found
  have hi : i ≠ k.length := length_ne_of_lt hlt hcommon.take
  have hik : i < k.length := lt_of_le_of_ne hcommon.le hi
  -- the first byte behind the common ones is larger than that of the last key
  have hbyte : ∀ c, us.labels[i]? = some c → c < k[i] := by
    intro c hc
    rw [hcommon.labels] at hc
    have hb : k[i]? = some k[i] := getElem?_eq_getElem hik
    exact byte_lt_of_lt hlt hcommon.take hb hc (hcommon.differ _ c hb hc)
  have hle : i ≤ us.labels.length := by
    rw [hcommon.labels]
    exact hcommon.le_labels
  obtain ⟨hvalid, hext, hspine, hlabels, htop⟩ :=
    hcommon.spine.extend (k.drop (i + 1)) out h.valid hle hbyte (hcommon.top h.top)
  have hkey : us.labels.take i ++ k[i] :: k.drop (i + 1) = k := by
    rw [hcommon.labels, hcommon.take, ← drop_eq_getElem_cons hik, take_append_drop]
  have heq : builder.insertOutput k v = { builder with
      writer := (builder.writer.compileFrom us i).1, len := builder.len + 1,
      unfinished :=
          (builder.writer.compileFrom us i).2.addSuffix (k[i] :: k.drop (i + 1)) out } := by
    unfold insertOutput
    rw [if_neg hne, ← hfound]
    dsimp only
    rw [if_neg hi, ← drop_eq_getElem_cons hik]
  rw [hkey, hcommon.out] at hspine
  rw [hkey] at hlabels
  rw [heq]
  refine ⟨h.header.trans hext, hvalid, hspine, ?_, htop, h.last, ?_, fun hnil => ?_⟩
  · rw [hlabels, getLast?_concat]
    rfl
  · rw [length_append, ← h.len]
    rfl
  · rw [hlabels] at hnil
    exact absurd hnil hne

/-- **One more key.** The check against the last key never fails, since no last key is
remembered. -/
theorem Inserted.insert (v : UInt64) :
    ∃ builder', builder.insert k v = .ok builder' ∧ Inserted ty builder' (kvs ++ [(k, v)]) := by
  refine ⟨builder.insertOutput k v, insert_eq h.last k v, ?_⟩
  by_cases hne : k = []
  · subst hne
    have hkvs : kvs = [] := by
      cases kvs with
      | nil => rfl
      | cons e kvs => exact absurd (hk e mem_cons_self) (not_lt_nil _)
    subst hkvs
    exact h.insertOutput_nil
  · exact h.insertOutput_cons hk hne

end

/-- All keys. -/
theorem Inserted.foldlM {more : List (Bytes × UInt64)} (h : Inserted ty builder kvs)
    (hsorted : ((kvs ++ more).map Prod.fst).Pairwise (· < ·)) :
    ∃ builder', more.foldlM (fun builder e => builder.insert e.1 e.2) builder = .ok builder' ∧
      Inserted ty builder' (kvs ++ more) := by
  induction more generalizing builder kvs with
  | nil =>
    rw [append_nil]
    exact ⟨builder, rfl, h⟩
  | cons e more ih =>
    have hk : ∀ e' ∈ kvs, e'.1 < e.1 := by
      rw [pairwise_map, pairwise_append] at hsorted
      exact fun e' he' => hsorted.2.2 e' he' e mem_cons_self
    obtain ⟨builder', hinsert, hinserted⟩ := h.insert hk e.2
    have hassoc : kvs ++ [(e.1, e.2)] ++ more = kvs ++ e :: more := by
      rw [append_assoc]
      rfl
    rw [← hassoc] at hsorted ⊢
    obtain ⟨builder'', hfold, hall⟩ := ih hinserted hsorted
    refine ⟨builder'', ?_, hall⟩
    rw [foldlM_cons, hinsert]
    exact hfold

/-! ## The finished dictionary -/

/-- `Finish` compiles all frames. -/
theorem finish_eq (hw : builder.writer.Valid)
    (h : Spine builder.writer.bytes builder.unfinished kvs) (hne : kvs ≠ []) :
    ∃ sum, builder.finish maskedChecksum =
      (builder.writer.compileFrames builder.unfinished).1.bytes ++
      (leBytes 8 builder.len ++ (leBytes 8 (builder.writer.compileFrames builder.unfinished).2 ++
      leBytes 4 sum)) := by
  obtain ⟨writer, us, last, len⟩ := builder
  have hroot : (((writer.compileFrom us 0).1).compile
      (((writer.compileFrom us 0).2.head?.map BuilderNodeUnfinished.node).getD ⟨false, 0, []⟩)) =
        writer.compileFrames us := by
    cases h with
    | @top u r branches last =>
      show writer.compile (u.lastCompiled noneAddress).node = writer.compile u.node
      unfold BuilderNodeUnfinished.lastCompiled
      rw [last]
    | @cons u t us r l branches last lt rest ne_nil =>
      obtain ⟨-, -, node, hstored, -⟩ := Spine.compileFrames hw rest ne_nil
      show (writer.compileFrames us).1.compile (u.lastCompiled (writer.compileFrames us).2).node =
        (writer.compileFrames us).1.compile
          (if (writer.compileFrames us).2 = noneAddress then u else u.lastCompiled
          (writer.compileFrames us).2).node
      rw [if_neg hstored.ne_none]
  refine ⟨maskedChecksum ((writer.compileFrames us).1.bytes ++ leBytes 8 len ++
    leBytes 8 (writer.compileFrames us).2), ?_⟩
  unfold finish
  dsimp only
  rw [hroot]
  simp only [append_assoc]

/-- The bytes of a dictionary: what the writer wrote, the number of keys, the root address and a
checksum. -/
structure Built (ty : UInt64) (kvs : List (Bytes × UInt64)) (data bytes : Bytes)
    (rootAddr sum : ℕ) : Prop where
  header : (new ty).writer.bytes <+: bytes
  data_eq : data = bytes ++ (leBytes 8 kvs.length ++ (leBytes 8 rootAddr ++ leBytes 4 sum))
  empty : rootAddr = emptyAddress → bytes.length = 16

theorem bytes_of_compile_eq_empty {w : NodeWriter} {node : BuilderNode} (hw : w.Valid)
    (h : (w.compile node).2 = emptyAddress) : (w.compile node).1.bytes = w.bytes := by
  have hpos := hw.pos
  unfold NodeWriter.compile at h ⊢
  split
  · rfl
  next hnode =>
    rw [if_neg hnode] at h
    cases hfind : w.registry.find node with
    | some addr => rfl
    | none =>
      rw [hfind] at h
      dsimp only at h
      rw [length_append] at h
      unfold emptyAddress at h
      omega

/-- A root without bytes of its own is alone. -/
theorem Inserted.length_of_empty {root : BuilderNode} (h : Inserted ty builder kvs)
    (hstored : Stored (builder.writer.compileFrames builder.unfinished).1.bytes
      (builder.writer.compileFrames builder.unfinished).2 root)
    (hspells : (machine (builder.writer.compileFrames builder.unfinished).1.bytes).Spells root kvs)
    (hempty : (builder.writer.compileFrames builder.unfinished).2 = emptyAddress) :
    (builder.writer.compileFrames builder.unfinished).1.bytes.length = 16 := by
  have htrans : root.trans = [] := by
    rw [eq_nil_iff_forall_not_mem]
    intro t ht
    have hlt := hstored.descend t ht
    rw [hempty] at hlt
    exact absurd hlt (Nat.not_lt_zero _)
  -- so the only key is the empty one
  have hlabels : builder.unfinished.labels = [] := by
    obtain ⟨r, hbranches, hkvs⟩ := hspells
    have hr : r = [] := by
      change (machine _).Branches root.trans r at hbranches
      rw [htrans] at hbranches
      cases hbranches
      rfl
    rw [h.labels]
    cases hlast : kvs.getLast? with
    | none => rfl
    | some e =>
      have hmem := mem_of_getLast? hlast
      rw [hkvs, hr, append_nil] at hmem
      exact mem_own hmem
  obtain ⟨u, r, hu, -, -, -⟩ := h.spine.of_labels_nil hlabels
  rw [hu] at hempty ⊢
  have hbytes : (builder.writer.compile u.node).1.bytes = builder.writer.bytes :=
    bytes_of_compile_eq_empty h.valid hempty
  show (builder.writer.compile u.node).1.bytes.length = 16
  rw [hbytes, h.fresh hlabels, length_header]

/-- **The dictionary spells what was inserted.** -/
theorem build_eq (hsorted : (kvs.map Prod.fst).Pairwise (· < ·))
    (hne : kvs ≠ []) : ∃ data bytes rootAddr sum root, build ty maskedChecksum kvs = .ok data ∧
      Built ty kvs data bytes rootAddr sum ∧ Stored bytes rootAddr root ∧
      (machine bytes).Spells root kvs := by
  obtain ⟨builder, hfold, hinserted⟩ := (Inserted.new ty).foldlM hsorted
  rw [nil_append] at hinserted
  obtain ⟨sum, hfinish⟩ := finish_eq hinserted.valid hinserted.spine hne
  obtain ⟨-, hext, root, hstored, hspells⟩ :=
    Spine.compileFrames hinserted.valid hinserted.spine hne
  refine ⟨builder.finish maskedChecksum, _, _, sum, root, ?_, ⟨hinserted.header.trans hext, ?_,
    hinserted.length_of_empty hstored hspells⟩, hstored, hspells⟩
  · unfold build
    rw [hfold]
    rfl
  · rw [hfinish, hinserted.len]

/-- Without keys the root is found in the registry, under the address of the empty final state. -/
theorem build_nil : ∃ data sum, build ty maskedChecksum [] = .ok data ∧
      Built ty [] data (new ty).writer.bytes emptyAddress sum := by
  refine ⟨(new ty).finish maskedChecksum, maskedChecksum ((new ty).writer.bytes ++
    leBytes 8 0 ++ leBytes 8 emptyAddress), rfl, prefix_refl _, ?_, fun _ => length_header ty⟩
  show (((new ty).writer.compile ⟨false, 0, []⟩).1.bytes ++ _ ++ _) ++ _ = _
  rfl

theorem readU64LE_eq {data x z : Bytes} {n i : ℕ} (h : data = x ++ (leBytes 8 n ++ z))
    (hi : i = x.length) : readU64LE data i = n % 2 ^ 64 := by
  unfold readU64LE
  rw [h, hi, drop_left, take_left' (length_leBytes 8 n), leValue_leBytes]
  rfl

/-- A dictionary is opened with its root address and the number of its keys. -/
theorem Built.make {data bytes : Bytes} {rootAddr sum : ℕ}
    (h : Built ty kvs data bytes rootAddr sum)
    (hroot : rootAddr < 2 ^ 64) : ∃ fst, Fst.make data = .ok fst ∧ fst.data = data ∧
      fst.info.rootAddr = rootAddr ∧ fst.len = kvs.length % 2 ^ 64 := by
  obtain ⟨y, hy⟩ := h.header
  have hbytes : 16 ≤ bytes.length := by
    rw [← hy, length_append, length_header]
    exact Nat.le_add_right _ _
  have hlength : data.length = bytes.length + 20 := by
    rw [h.data_eq]
    simp only [length_append, length_leBytes]
  have hversion : readU64LE data 0 = 3 := by
    have hsplit : data = [] ++ (leBytes 8 3 ++ (leBytes 8 ty.toNat ++ (y ++
        (leBytes 8 kvs.length ++ (leBytes 8 rootAddr ++ leBytes 4 sum))))) := by
      rw [h.data_eq, ← hy]
      show leBytes 8 3 ++ leBytes 8 ty.toNat ++ y ++ _ = _
      simp only [append_assoc, nil_append]
    exact readU64LE_eq hsplit rfl
  have hrootAddr : readU64LE data (data.length - 4 - 8) = rootAddr := by
    rw [← Nat.mod_eq_of_lt hroot]
    apply readU64LE_eq (h.data_eq.trans (append_assoc ..).symm)
    rw [length_append, length_leBytes, hlength]
    omega
  have hlen : readU64LE data (data.length - 4 - 16) = kvs.length % 2 ^ 64 :=
    readU64LE_eq h.data_eq (by omega)
  have hcheck : ¬ ((rootAddr = emptyAddress ∧ data.length ≠ 36) ∧ rootAddr + 21 ≠ data.length) := by
    rintro ⟨⟨hzero, hne⟩, -⟩
    have hempty := h.empty hzero
    omega
  refine ⟨⟨⟨3, rootAddr, readU64LE data 8, kvs.length % 2 ^ 64, readU32LE data (data.length - 4)⟩,
    data⟩, ?_, rfl, rfl, rfl⟩
  unfold Fst.make
  rw [if_neg (by omega), if_neg (not_not_intro hversion)]
  dsimp only
  rw [hversion, hrootAddr, hlen, if_neg hcheck]

end Infinity.Fst
