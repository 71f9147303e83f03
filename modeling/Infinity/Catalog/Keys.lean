import Mathlib

/-! # The keys of catalog entries (`EncodeIndex`, `DecodeIndex`)

The key of an entry is that of its parent, a `#`, and a name or an id in decimal. The segments and
the indexes of a table stand side by side, and the planner takes any name for an index: keys are
unambiguous only as long as no index is called like a segment and no name contains a `#`.

* `unambiguous_iff`: for which names of indexes the keys are unambiguous.
-/

namespace Infinity.Catalog

open List

/-- `IdentifierValidation` returns `kOk`. -/
def identifierValidation (identifier : List Char) : Bool :=
  match identifier with
  | [] => false
  | first :: rest =>
    identifier.length < 65536 && (first.isAlpha || first == '_') && rest.all fun c =>
      c.isAlphanum || c == '_'

/-- A name that `IdentifierValidation` accepts. -/
abbrev Identifier := { s : List Char // identifierValidation s = true }

/-- An entry without its ancestors. Indexes have names in `names`. -/
inductive Node (names : Set (List Char)) where
  | catalog
  | database (name : Identifier)
  | table (name : Identifier)
  | segment (id : UInt32)
  | block (id : UInt16)
  | column (id : UInt64)
  | tableIndex (name : names)
  | segmentIndex (id : UInt32)
  | chunkIndex (id : UInt32)

variable {names : Set (List Char)} {cs : List (List Char)}

namespace Node

/-- What an entry adds to the key of its parent. -/
def text : Node names → List Char
  | catalog => []
  | database name | table name => name
  | tableIndex name => name
  | segment id | segmentIndex id | chunkIndex id => Nat.toDigits 10 id.toNat
  | block id => Nat.toDigits 10 id.toNat
  | column id => Nat.toDigits 10 id.toNat

def Parent : Node names → Node names → Prop
  | catalog, database _ | database _, table _ | table _, segment _ | segment _, block _
  | block _, column _ => True
  | table _, tableIndex _ | tableIndex _, segmentIndex _ | segmentIndex _, chunkIndex _ => True
  | _, _ => False

end Node

/-- An entry with those that hold it, from the catalog on. -/
@[ext]
structure CatalogEntry (names : Set (List Char)) where
  nodes : List (Node names)
  chain : (Node.catalog :: nodes).IsChain Node.Parent
  ne_nil : nodes ≠ []

def joined (components : List (List Char)) : List Char := components.flatMap ('#' :: ·)

/-- `EncodeIndex`. -/
def CatalogEntry.encode (e : CatalogEntry names) : List Char := joined (e.nodes.map Node.text)

/-- What stands before and behind the `#` that `rfind` finds. -/
def rfind (s : List Char) : Option (List Char × List Char) :=
  if '#' ∈ s then some ((s.reverse.dropWhile (· != '#')).tail.reverse,
    (s.reverse.takeWhile (· != '#')).reverse) else none

/-- `DecodeIndex` of a database and, by the `DecodeIndex` of the parent, of every other entry. -/
def decodeIndex : ℕ → List Char → Option (List (List Char))
  | 0, encode => if encode.head? = some '#' then some [encode.tail] else none
  | depth + 1, encode => (rfind encode).bind fun s => (decodeIndex depth s.1).map (· ++ [s.2])

/-- **Keys are unambiguous.** -/
structure Unambiguous (names : Set (List Char)) : Prop where
  inj : ∀ e e' : CatalogEntry names, e.encode = e'.encode → e = e'
  decode : ∀ e : CatalogEntry names, decodeIndex (e.nodes.length - 1) e.encode =
    some (e.nodes.map Node.text)
  under : ∀ e e' : CatalogEntry names, e.encode ++ ['#'] <+: e'.encode → e.nodes <+: e'.nodes ∧
    e ≠ e'

/-- No `#` occurs in the name of an index, and it is not the id of a segment. -/
def Separable (names : Set (List Char)) : Prop :=
  ∀ n ∈ names, '#' ∉ n ∧ ∀ id : UInt32, n ≠ Nat.toDigits 10 id.toNat

theorem decodeIndex_joined {c : List Char} (h : ∀ c ∈ cs, '#' ∉ c) :
    decodeIndex cs.length (joined (c :: cs)) = some (c :: cs) := by
  induction cs using List.reverseRecOn with
  | nil => simp [joined, decodeIndex]
  | append_singleton cs d ih =>
    have hall : ∀ c ∈ d.reverse, (c != '#') := fun c hc => by
      simpa using ne_of_mem_of_not_mem (mem_reverse.mp hc) (h d (by simp))
    have hfind : rfind (joined (c :: (cs ++ [d]))) = some (joined (c :: cs), d) := by
      simp [joined, rfind, takeWhile_append_of_pos hall, dropWhile_append_of_pos hall]
    rw [length_append, length_singleton, decodeIndex, hfind, Option.bind_some, ih fun c hc =>
      h c (by simp [hc])]
    rfl

theorem splitOn_joined {a : List Char} (ha : '#' ∉ a) (h : ∀ c ∈ cs, '#' ∉ c) :
    (a ++ joined cs).splitOn '#' = a :: cs := by
  induction cs generalizing a with
  | nil => simpa [joined] using splitOn_eq_singleton ha
  | cons c cs ih =>
    obtain ⟨hc, hcs⟩ := forall_mem_cons.mp h
    exact (splitOn_append_cons_self_of_not_mem ha _).trans (congrArg _ (ih hc hcs))

theorem toDigits_inj {m n : ℕ} : Nat.toDigits 10 m = Nat.toDigits 10 n ↔ m = n := by
  refine ⟨fun h => ?_, congrArg _⟩
  rw [← Nat.ofDigitChars_ten_toDigits (n := m), h, Nat.ofDigitChars_ten_toDigits]

/-! ## Paths -/

section Paths

variable (hnames : Separable names) {a : Node names}

include hnames

theorem not_mem_text (x : Node names) : '#' ∉ x.text := by
  have hdigits : ∀ n, '#' ∉ Nat.toDigits 10 n := fun n h =>
    absurd (Nat.isDigit_of_mem_toDigits (by decide) (by decide) h) (by decide)
  have hname : ∀ s : Identifier, '#' ∉ s.1 := by
    rintro ⟨_ | ⟨c, s⟩, hs⟩
    · cases hs
    · simp only [identifierValidation, Bool.and_eq_true, all_eq_true] at hs
      rintro (_ | ⟨_, h⟩)
      · exact absurd hs.1.2 (by decide)
      · exact absurd (hs.2 _ h) (by decide)
  cases x with
  | catalog => exact not_mem_nil
  | database name | table name => exact hname name
  | tableIndex name => exact (hnames _ name.2).1
  | _ => exact hdigits _

/-- Entries under the same one that are called the same are the same. -/
theorem eq_of_text {x y : Node names} (hx : a.Parent x) (hy : a.Parent y) (h : x.text = y.text) :
    x = y := by
  cases a <;> cases x <;> cases hx <;> cases y <;> cases hy <;> simp only [Node.text] at h
  case table.segment.intro.tableIndex.intro id name => exact absurd h.symm ((hnames _ name.2).2 id)
  case table.tableIndex.intro.segment.intro name id => exact absurd h ((hnames _ name.2).2 id)
  all_goals simpa [toDigits_inj, UInt32.toNat_inj, UInt16.toNat_inj, UInt64.toNat_inj,
    Subtype.ext_iff] using h

theorem prefix_of_text {p q : List (Node names)} (hp : (a :: p).IsChain Node.Parent)
    (hq : (a :: q).IsChain Node.Parent) (h : p.map Node.text <+: q.map Node.text) : p <+: q := by
  induction p generalizing a q with
  | nil => exact nil_prefix
  | cons x p ih =>
    cases q with
    | nil => simp at h
    | cons y q =>
      obtain ⟨hx, hp⟩ := isChain_cons_cons.mp hp
      obtain ⟨hy, hq⟩ := isChain_cons_cons.mp hq
      obtain ⟨htext, htexts⟩ := cons_prefix_cons.mp h
      obtain rfl := eq_of_text hnames hx hy htext
      exact cons_prefix_cons.mpr ⟨rfl, ih hp hq htexts⟩

theorem splitOn_encode (e : CatalogEntry names) :
    e.encode.splitOn '#' = [] :: e.nodes.map Node.text :=
  splitOn_joined not_mem_nil (forall_mem_map.mpr fun x _ => not_mem_text hnames x)

end Paths

def inTable (x : Node names) (hx : Node.Parent (.table ⟨['t'], rfl⟩) x) : CatalogEntry names :=
  ⟨[.database ⟨['d'], rfl⟩, .table ⟨['t'], rfl⟩, x], by
    simpa only [List.isChain_cons_cons, List.isChain_singleton, and_true] using ⟨trivial, trivial,
      hx⟩, by simp⟩

/-- **Keys are unambiguous exactly if the names of indexes contain no `#` and are no ids of
segments.** -/
theorem unambiguous_iff (names : Set (List Char)) : Unambiguous names ↔ Separable names := by
  constructor
  · refine fun h n hn => ⟨fun hsharp => ?_, ?_⟩
    · obtain ⟨s, hs, hdecode⟩ :=
        Option.bind_eq_some_iff.mp (h.decode (inTable (.tableIndex ⟨n, hn⟩) trivial))
      obtain ⟨l, -, hl⟩ := Option.map_eq_some_iff.mp hdecode
      have hlast : s.2 = n := by simpa [inTable, Node.text] using congrArg List.getLast? hl
      rw [← hlast, ← Option.some.inj hs, mem_reverse] at hsharp
      simpa using mem_takeWhile_imp hsharp
    · rintro id rfl
      cases h.inj (inTable (.segment id) trivial) (inTable (.tableIndex ⟨_, hn⟩) trivial) rfl
  · intro hnames
    refine ⟨fun e e' heq => CatalogEntry.ext ?_, fun e => ?_, ?_⟩
    · have hsplit := congrArg (List.splitOn '#') heq
      rw [splitOn_encode hnames, splitOn_encode hnames] at hsplit
      have htexts := tail_eq_of_cons_eq hsplit
      have hle := prefix_of_text hnames e.chain e'.chain (htexts ▸ prefix_rfl)
      exact hle.eq_of_length (by simpa using congrArg List.length htexts)
    · obtain ⟨nodes, hchain, hne⟩ := e
      cases nodes with
      | nil => exact absurd rfl hne
      | cons x nodes =>
        have := decodeIndex_joined (c := x.text) (forall_mem_map.mpr fun y (_ : y ∈ nodes) =>
          not_mem_text hnames y)
        rwa [length_map] at this
    · rintro e e' ⟨rest, hrest⟩
      have hsplit := congrArg (List.splitOn '#') hrest
      rw [append_assoc, singleton_append, splitOn_append_cons_self, splitOn_encode hnames,
        splitOn_encode hnames] at hsplit
      refine ⟨prefix_of_text hnames e.chain e'.chain ⟨_, tail_eq_of_cons_eq hsplit⟩, ?_⟩
      rintro rfl
      simpa using congrArg List.length hrest

/-- An index called like a segment. -/
theorem not_unambiguous_zero : ¬ Unambiguous {['0']} := fun h =>
  nomatch h.inj (inTable (.segment 0) trivial) (inTable (.tableIndex ⟨['0'], rfl⟩) trivial) rfl

end Infinity.Catalog
