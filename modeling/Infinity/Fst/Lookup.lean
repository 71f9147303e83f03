import Infinity.Fst.Built
import Infinity.Fst.FanOut

/-! # Lookup in the term dictionary

A lookup follows the bytes of the key from node to node. It stands at nodes that spell what is left
of the keys through them, as long as no node on the way has more than 254 transitions. With 256 it
sees none of them; with 255 it takes the one byte without transition for one, and goes on from what
lies behind the table, where it may find anything.

* `LookupExact`: lookup gives exactly what was inserted.
* `lookupExact_of_findable`: lookup is exact if there are keys and nowhere more than 254 bytes
  follow; without keys, or where all 256 follow, it is not.
* `not_lookupExact_nil`: the empty dictionary has a key.
-/

namespace Infinity.Fst

open Foundations List

/-! ## Standing at a node -/

/-- A reader stands at a node that was stored, and the node spells some words. -/
structure Stands (bytes data : Bytes) (n : Node) (node : BuilderNode) (l : List (Bytes × UInt64)) :
    Prop where
  stored : Stored bytes n.start node
  read : ReadBack data n.start node n
  spells : (machine bytes).Spells node l

variable {bytes data : Bytes} {n : Node} {node : BuilderNode} {l kvs : List (Bytes × UInt64)}
  {b : UInt8} {p s : Bytes} {out : UInt64} {maskedChecksum : Bytes → ℕ} {ty : UInt64} {k : Bytes}

theorem Stands.of_stored {addr : ℕ} (hext : bytes <+: data) (hsize : data.length < 2 ^ 64)
    (hstored : Stored bytes addr node) (hspells : (machine bytes).Spells node l) :
    ∃ n, Node.make data addr = some n ∧ n.start = addr ∧ Stands bytes data n node l := by
  obtain ⟨z, rfl⟩ := hext
  obtain ⟨n, hn⟩ := hstored.read z hsize
  refine ⟨n, hn.make, hn.start, ?_, ?_, hspells⟩
  · rw [hn.start]
    exact hstored
  · rw [hn.start]
    exact hn

namespace Stands

variable (h : Stands bytes data n node l)

include h

theorem length_eq : node.trans.length = fanOut l [] := by
  obtain ⟨r, hbranches, rfl⟩ := h.spells
  exact length_trans_eq_fanOut hbranches

/-- The words of a node that end there. -/
theorem nil_mem_iff (v : UInt64) : ([], v) ∈ l ↔ n.isFinal ∧ v = n.output := by
  obtain ⟨r, hbranches, rfl⟩ := h.spells
  have hr : ∀ v, (([] : Bytes), v) ∉ r := by
    intro v hv
    obtain ⟨t, -, k, ⟨⟩⟩ := hbranches.head_mem hv
  have hown : ([], v) ∈ own (α := UInt8) node.final ↔ node.isFinal ∧ v = node.finalOutput := by
    unfold BuilderNode.final own
    cases node.isFinal with
    | false => simp
    | true => simp
  have hmem : ([], v) ∈ own ((machine bytes).final node) ++ r ↔
      ([], v) ∈ own (α := UInt8) node.final := by
    rw [mem_append]
    exact or_iff_left (hr v)
  rw [hmem, hown, h.read.isFinal, h.read.output]
  apply and_congr_right
  intro hfinal
  rw [if_pos hfinal]

/-- A byte that no key goes on with has no transition. -/
theorem absent (hb : ¬ Path l [b]) : ∀ t ∈ node.trans, t.inp ≠ b := by
  obtain ⟨r, hbranches, rfl⟩ := h.spells
  intro t ht heq
  apply hb
  rw [path_own_append, path_singleton_iff hbranches]
  exact ⟨t, ht, heq⟩

/-- One byte of a path: the transition is found, and leads to a node with what is left of the
words. -/
theorem step (hext : bytes <+: data) (hsize : data.length < 2 ^ 64) (hle : node.trans.length ≤ 255)
    (hpath : Path l (b :: p)) : ∃ i t n' node' l', n.findInput data b = some (some i) ∧
      n.transAt data i = some t ∧ Node.make data t.addr = some n' ∧ Stands bytes data n' node' l' ∧
      (∀ k v, (b :: k, v) ∈ l ↔ (k, v) ∈ shift t.out l') ∧ ∀ q, Path l (b :: q) ↔ Path l' q := by
  obtain ⟨r, hbranches, rfl⟩ := h.spells
  rw [path_own_append] at hpath
  obtain ⟨t, ht, rfl⟩ : ∃ t ∈ node.trans, t.inp = b := by
    apply (path_singleton_iff hbranches).mp
    obtain ⟨e, he, hp⟩ := hpath
    exact ⟨e, he, IsPrefix.trans (cons_prefix_cons.mpr ⟨rfl, nil_prefix⟩) hp⟩
  obtain ⟨node', l', hstored, hspells, -, hmem⟩ := hbranches.child ht
  obtain ⟨i, hi, hget⟩ := mem_iff_getElem.mp ht
  have hget' : node.trans[i]? = some t := List.getElem?_eq_some_iff.mpr ⟨hi, hget⟩
  obtain ⟨n', hmake, -, hstands⟩ := Stands.of_stored hext hsize hstored hspells
  refine ⟨i, t, n', node', l', h.read.found hle i t hget', h.read.transAt hle i t hget', hmake,
    hstands, ?_, ?_⟩
  · intro k v
    refine Iff.trans ?_ (hmem k v)
    rw [mem_append]
    apply or_iff_right
    intro hown
    cases mem_own hown
  · intro q
    rw [path_own_append]
    exact path_cons_iff hmem

end Stands

/-! ## Along a path -/

theorem walk_cons_none (h : n.findInput data b = some none) :
    Fst.walk data n (b :: s) out = some none := by
  unfold Fst.walk
  rw [h]
  rfl

theorem walk_cons_some {i : ℕ} (h : n.findInput data b = some (some i)) :
    Fst.walk data n (b :: s) out = n.transAt data i >>= fun t =>
      Node.make data t.addr >>= fun next => Fst.walk data next s (out + t.out) := by
  conv_lhs => unfold Fst.walk
  rw [h]
  rfl

/-- **A lookup along a path** stands at a node with what is left of the words. -/
theorem walk_append (hext : bytes <+: data) (hsize : data.length < 2 ^ 64)
    (h : Stands bytes data n node l) (hpath : Path l p)
    (hle : ∀ q b, q ++ [b] <+: p → fanOut l q ≤ 255) :
      ∃ n' node' l' m, (∀ s out, Fst.walk data n (p ++ s) out = Fst.walk data n' s (out + m)) ∧
      Stands bytes data n' node' l' ∧ (∀ k v, (p ++ k, v) ∈ l ↔ (k, v) ∈ shift m l') ∧
      ∀ q, Path l (p ++ q) ↔ Path l' q := by
  induction p generalizing n node l with
  | nil =>
    refine ⟨n, node, l, 0, fun s out => ?_, h, fun k v => ?_, fun q => Iff.rfl⟩
    · rw [add_zero]
      rfl
    · rw [shift_zero]
      rfl
  | cons b p ih =>
    have hlength : node.trans.length ≤ 255 := by
      rw [h.length_eq]
      exact hle [] b (cons_prefix_cons.mpr ⟨rfl, nil_prefix⟩)
    obtain ⟨i, t, n', node', l', hfind, htrans, hmake, hstands, hmem, hpaths⟩ :=
      h.step hext hsize hlength hpath
    have hle' : ∀ q c, q ++ [c] <+: p → fanOut l' q ≤ 255 := by
      intro q c hq
      rw [← fanOut_congr (p := b :: q) (q := q) fun c => hpaths (q ++ [c])]
      exact hle (b :: q) c (cons_prefix_cons.mpr ⟨rfl, hq⟩)
    obtain ⟨n'', node'', l'', m, hwalk, hstands', hmem', hpaths'⟩ :=
      ih hstands ((hpaths p).mp hpath) hle'
    refine ⟨n'', node'', l'', t.out + m, fun s out => ?_, hstands', fun k v => ?_, fun q => ?_⟩
    · rw [← add_assoc, ← hwalk]
      rw [cons_append, walk_cons_some hfind, htrans]
      show (Node.make data t.addr >>= fun _ => _) = _
      rw [hmake]
      rfl
    · rw [cons_append, hmem]
      rw [← shift_shift, mem_shift, mem_shift]
      simp only [hmem']
    · rw [cons_append, hpaths, hpaths']

/-! ## Lookups in an open dictionary -/

section Opened

variable {fst : Fst} (hext : bytes <+: fst.data) (hsize : fst.data.length < 2 ^ 64)
  (hroot : fst.root = some n)
  (h : Stands bytes fst.data n node kvs) (hpath : Path kvs p)
    (hle : ∀ q b, q ++ [b] <+: p → fanOut kvs q ≤ 255)

include hext hsize hroot h hpath hle

/-- The end of a lookup along a path. -/
theorem get_append : ∃ n' node' l' m,
      (∀ s, fst.get (p ++ s) = Fst.walk fst.data n' s m >>= fun found => some (Fst.value found)) ∧
      Stands bytes fst.data n' node' l' ∧ (∀ v, (p, v) ∈ kvs ↔ ([], v) ∈ shift m l') ∧
      (∀ b, Path kvs (p ++ [b]) ↔ Path l' [b]) ∧ node'.trans.length = fanOut kvs p := by
  obtain ⟨n', node', l', m, hwalk, hstands, hmem, hpaths⟩ := walk_append hext hsize h hpath hle
  refine ⟨n', node', l', m, fun s => ?_, hstands, fun v => ?_, fun b => hpaths [b], ?_⟩
  · unfold Fst.get
    rw [hroot]
    show (Fst.walk fst.data n (p ++ s) 0 >>= fun found => some (Fst.value found)) = _
    rw [hwalk, zero_add]
  · rw [← hmem, append_nil]
  · rw [hstands.length_eq]
    exact (fanOut_congr fun b => hpaths [b]).symm

/-- A key that some key goes on from. -/
theorem get_path : ∃ found, fst.get p = some found ∧ ∀ v, found = some v ↔ (p, v) ∈ kvs := by
  obtain ⟨n', node', l', m, hget, hstands, hmem, -, -⟩ := get_append hext hsize hroot h hpath hle
  refine ⟨Fst.value (some (n', m)), ?_, fun v => ?_⟩
  · rw [← append_nil p, hget]
    rfl
  · rw [hmem, mem_shift]
    simp only [hstands.nil_mem_iff]
    unfold Fst.value
    cases hfinal : n'.isFinal with
    | false => simp [hfinal]
    | true => simp [hfinal, eq_comm]

/-- A byte that no key goes on with is not found, if there are not too many others. -/
theorem get_absent (hlt : fanOut kvs p ≤ 254) (hb : ¬ Path kvs (p ++ [b])) (s : Bytes) :
    fst.get (p ++ b :: s) = some none := by
  obtain ⟨n', node', l', m, hget, hstands, -, hpaths, hlength⟩ :=
    get_append hext hsize hroot h hpath hle
  rw [hpaths] at hb
  have hfind := hstands.read.absent (hlength ▸ hlt) b (hstands.absent hb)
  rw [hget, walk_cons_none hfind]
  rfl

/-- If all bytes follow, none is found. -/
theorem get_full (heq : fanOut kvs p = 256) (b : UInt8) (s : Bytes) :
    fst.get (p ++ b :: s) = some none := by
  obtain ⟨n', node', l', m, hget, hstands, -, -, hlength⟩ := get_append hext hsize hroot h hpath hle
  have hfind := hstands.read.full (hlength ▸ heq) b
  rw [hget, walk_cons_none hfind]
  rfl

end Opened

/-! ## Exact lookup -/

/-- A key that no key goes on from leaves the keys at some byte. -/
theorem exists_leaving (hne : kvs ≠ []) (hk : ¬ Path kvs k) :
    ∃ p b s, k = p ++ b :: s ∧ Path kvs p ∧ ¬ Path kvs (p ++ [b]) := by
  induction k using List.reverseRecOn with
  | nil =>
    obtain ⟨e, he⟩ := exists_mem_of_ne_nil kvs hne
    exact absurd ⟨e, he, nil_prefix⟩ hk
  | append_singleton k a ih =>
    by_cases hpath : Path kvs k
    · exact ⟨k, a, [], rfl, hpath, hk⟩
    · obtain ⟨p, b, s, rfl, hp, hb⟩ := ih hpath
      exact ⟨p, b, s ++ [a], by rw [append_assoc, cons_append], hp, hb⟩

theorem exists_follower (h : 0 < fanOut kvs p) : ∃ b, Path kvs (p ++ [b]) := by
  obtain ⟨b, hb⟩ := exists_mem_of_length_pos h
  exact ⟨b, of_decide_eq_true (mem_filter.mp hb).2⟩

/-- **Lookup is exact**: the dictionary is built and opened, its length is the number of keys, and
`Get` returns true with a value just for the pairs that were inserted. -/
def LookupExact (ty : UInt64) (maskedChecksum : Bytes → ℕ) (kvs : List (Bytes × UInt64)) : Prop :=
  ∃ data fst, FstBuilder.build ty maskedChecksum kvs = .ok data ∧ Fst.make data = .ok fst ∧
    fst.len = kvs.length ∧ ∀ k, ∃ found, fst.get k = some found ∧ ∀ v, found = some v ↔ (k, v) ∈ kvs

/-- Without keys the root is the empty final state, and so the empty key is found. -/
theorem get_nil_of_build_nil {fst : Fst}
    (hbuild : FstBuilder.build ty maskedChecksum [] = .ok data) (hmake : Fst.make data = .ok fst) :
    fst.get [] = some (some 0) := by
  obtain ⟨data', sum, hbuild', hbuilt⟩ := build_nil
  obtain ⟨fst', hmake', -, hroot, -⟩ := hbuilt.make (by decide)
  cases hbuild.symm.trans hbuild'
  cases hmake.symm.trans hmake'
  unfold Fst.get Fst.root
  rw [hroot]
  rfl

/-- A dictionary with keys is built and opened, and its root spells them. -/
theorem exists_opened (ty : UInt64) (maskedChecksum : Bytes → ℕ) (hne : kvs ≠ [])
    (hsorted : (kvs.map Prod.fst).Pairwise (· < ·))
    (hsize : ∀ data, FstBuilder.build ty maskedChecksum kvs = .ok data → data.length < 2 ^ 64) :
    ∃ data fst bytes n node, FstBuilder.build ty maskedChecksum kvs = .ok data ∧
      Fst.make data = .ok fst ∧
      fst.len = kvs.length % 2 ^ 64 ∧ bytes <+: fst.data ∧ fst.data.length < 2 ^ 64 ∧
      fst.root = some n ∧ n.start = fst.info.rootAddr ∧ Stands bytes fst.data n node kvs := by
  obtain ⟨data, bytes, rootAddr, sum, root, hbuild, hbuilt, hstored, hspells⟩ :=
    build_eq hsorted hne
  have hlength := hsize data hbuild
  have hext : bytes <+: data := hbuilt.data_eq ▸ prefix_append _ _
  have hroot : rootAddr < 2 ^ 64 := by
    rcases hstored.backward with hzero | hlt
    · rw [hzero]
      decide
    · exact (hlt.trans_le hext.length_le).trans hlength
  obtain ⟨fst, hmake, hdata, haddr, hlen⟩ := hbuilt.make hroot
  obtain ⟨n, hn, hstart, hstands⟩ := Stands.of_stored hext hlength hstored hspells
  refine ⟨data, fst, bytes, n, root, hbuild, hmake, hlen, hdata ▸ hext, hdata ▸ hlength, ?_, ?_,
    hdata ▸ hstands⟩
  · unfold Fst.root
    rw [hdata, haddr]
    exact hn
  · rw [hstart, haddr]

theorem not_lookupExact_of_nil (ty : UInt64) (maskedChecksum : Bytes → ℕ) :
    ¬ LookupExact ty maskedChecksum [] := by
  rintro ⟨data, fst, hbuild, hmake, -, hget⟩
  obtain ⟨found, hfound, hmem⟩ := hget []
  rw [get_nil_of_build_nil hbuild hmake] at hfound
  exact absurd ((hmem 0).mp (Option.some.inj hfound).symm) not_mem_nil

/-- What lookup takes: there are keys, no more than can be counted, and no sequence of bytes is
followed by more than 254 bytes. -/
structure Findable (kvs : List (Bytes × UInt64)) : Prop where
  ne_nil : kvs ≠ []
  length_lt : kvs.length < 2 ^ 64
  fanOut_le : ∀ p, fanOut kvs p ≤ 254

/-- Where lookup is exact, not all bytes follow a sequence of bytes: the induction is on its length,
so that all shorter ones have fewer followers. -/
theorem LookupExact.not_full (h : LookupExact ty maskedChecksum kvs) (hne : kvs ≠ [])
    (hsorted : (kvs.map Prod.fst).Pairwise (· < ·))
    (hsize : ∀ data, FstBuilder.build ty maskedChecksum kvs = .ok data → data.length < 2 ^ 64)
    (p : Bytes) : fanOut kvs p ≠ 256 := by
  obtain ⟨data, fst, hbuild, hmake, -, hget⟩ := h
  obtain ⟨data', fst', bytes, n, node, hbuild', hmake', -, hext, hlength, hroot, -, hstands⟩ :=
    exists_opened ty maskedChecksum hne hsorted hsize
  cases hbuild.symm.trans hbuild'
  cases hmake.symm.trans hmake'
  induction hp : p.length using Nat.strong_induction_on generalizing p with
  | _ m ih =>
    intro heq
    have hle : ∀ q b, q ++ [b] <+: p → fanOut kvs q ≤ 255 := by
      intro q b hq
      have hlt := hq.length_le
      rw [length_append, length_singleton] at hlt
      have hne := ih q.length (by omega) q rfl
      have hbound := fanOut_le kvs q
      omega
    obtain ⟨b, e, he, s, hs⟩ := exists_follower (show 0 < fanOut kvs p by omega)
    have hpath : Path kvs p := ⟨e, he, [b] ++ s, by rw [← hs, append_assoc]⟩
    obtain ⟨found, hfound, hmem⟩ := hget e.1
    have hkey : e.1 = p ++ b :: s := by rw [← hs, append_assoc]; rfl
    rw [hkey, get_full hext hlength hroot hstands hpath hle heq] at hfound
    have hsome := (hmem e.2).mpr he
    rw [← Option.some.inj hfound] at hsome
    cases hsome

/-- A dictionary whose keys can be found is exact. -/
theorem Findable.lookupExact (h : Findable kvs) (hsorted : (kvs.map Prod.fst).Pairwise (· < ·))
    (hsize : ∀ data, FstBuilder.build ty maskedChecksum kvs = .ok data → data.length < 2 ^ 64) :
    LookupExact ty maskedChecksum kvs := by
  obtain ⟨data, fst, bytes, n, node, hbuild, hmake, hlen, hext, hlength, hroot, -, hstands⟩ :=
    exists_opened ty maskedChecksum h.ne_nil hsorted hsize
  have hle : ∀ p, fanOut kvs p ≤ 255 := fun p => (h.fanOut_le p).trans (by decide)
  refine ⟨data, fst, hbuild, hmake, ?_, fun k => ?_⟩
  · rw [hlen, Nat.mod_eq_of_lt h.length_lt]
  · by_cases hk : Path kvs k
    · exact get_path hext hlength hroot hstands hk fun q _ _ => hle q
    · obtain ⟨p, b, s, rfl, hp, hb⟩ := exists_leaving h.ne_nil hk
      refine ⟨none, ?_, fun v => ⟨nofun, fun hv => absurd ⟨_, hv, prefix_refl _⟩ hk⟩⟩
      exact get_absent hext hlength hroot hstands hp (fun q _ _ => hle q) (h.fanOut_le p) hb s

/-- **Lookup is exact if there are keys and nowhere more than 254 bytes follow**; where it is exact
there are keys, they can be counted, and nowhere all 256 bytes follow. -/
theorem lookupExact_of_findable (ty : UInt64) (maskedChecksum : Bytes → ℕ)
    (kvs : List (Bytes × UInt64)) (hsorted : (kvs.map Prod.fst).Pairwise (· < ·))
    (hsize : ∀ data, FstBuilder.build ty maskedChecksum kvs = .ok data → data.length < 2 ^ 64) :
    (Findable kvs → LookupExact ty maskedChecksum kvs) ∧
      (LookupExact ty maskedChecksum kvs →
        kvs ≠ [] ∧ kvs.length < 2 ^ 64 ∧ ∀ p, fanOut kvs p ≠ 256) := by
  refine ⟨fun h => h.lookupExact hsorted hsize, fun h => ?_⟩
  have hne : kvs ≠ [] := fun hnil => not_lookupExact_of_nil ty maskedChecksum (hnil ▸ h)
  refine ⟨hne, ?_, h.not_full hne hsorted hsize⟩
  obtain ⟨data, fst, hbuild, hmake, hlen, -⟩ := h
  obtain ⟨data', fst', -, -, -, hbuild', hmake', hlen', -⟩ :=
    exists_opened ty maskedChecksum hne hsorted hsize
  cases hbuild.symm.trans hbuild'
  cases hmake.symm.trans hmake'
  rw [← hlen, hlen']
  exact Nat.mod_lt _ (by decide)

/-- The keys `car`, `cat`, `dog` and `dogs`. -/
def fourKeys : List (Bytes × UInt64) :=
  [([99, 97, 114], 5), ([99, 97, 116], 2), ([100, 111, 103], 9), ([100, 111, 103, 115], 7)]

/-- Lookup in a dictionary with four keys that share bytes is exact. -/
theorem lookupExact_fourKeys : LookupExact 0 (fun _ => 0) fourKeys := by
  refine (lookupExact_of_findable 0 (fun _ => 0) fourKeys (by decide) ?_).1 ?_
  · intro data hdata
    rw [← Except.ok.inj (rfl.trans hdata)]
    decide +kernel
  · exact ⟨nofun, by decide, fun p => (fanOut_le_length fourKeys p).trans (by decide)⟩

/-- The empty dictionary has the empty key. -/
theorem not_lookupExact_nil : ¬ LookupExact 0 (fun _ => 0) [] := not_lookupExact_of_nil _ _

end Infinity.Fst
