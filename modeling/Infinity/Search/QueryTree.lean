import Infinity.Foundations.Outcome
import Infinity.Foundations.RoundedSum

/-! # The optimisation of query trees

`GetOptimizedQueryTree` rewrites the tree of the parser before a search: NOT nodes are combined with
the AND above them into AND_NOT nodes, nested nodes of one kind are flattened, and trees in which a
NOT remains are rejected. A NOT node with several children excludes the documents of each of them.

Weights are binary32 values, and their sums and products are rounded (`Foundations.RoundedSum`).

* `QueryNode.holds`: the boolean meaning of a tree for one document.
* `QueryNode.normal`: the normal form of optimised trees.
* `getNewOptimizedQueryTree_sound`: the optimisation keeps the meaning, adds up weights of equal
  terms and reaches the normal form, or a NOT cannot be absorbed.
* `holds_getOptimizedQueryTree`, `normal_getOptimizedQueryTree`: so for the whole query, where no
  NOT node is left. -/

namespace Infinity.Search

open Foundations List

/-! ## Trees -/

/-- `QueryNode`. A phrase has a first term, and an AND_NOT node a first child. -/
inductive QueryNode where
  | term (term column : String) (position : Bool) (weight : ℚ := 1)
  | phrase (first : String) (rest : List String) (column : String) (weight : ℚ := 1)
  | not (children : List QueryNode) (weight : ℚ := 1)
  | and (children : List QueryNode) (weight : ℚ := 1)
  | andNot (first : QueryNode) (rest : List QueryNode) (weight : ℚ := 1)
  | or (children : List QueryNode) (weight : ℚ := 1)

/-- The errors of the optimisation. -/
inductive QueryError where
  | syntaxError (message : String)
  | unrecoverable (message : String)
  deriving DecidableEq, Repr

namespace QueryNode

mutual

def holds (contains : String → String → Bool) : QueryNode → Bool
  | term text column _ _ => contains column text
  | phrase first rest column _ => (first :: rest).all (contains column)
  | not children _ => !anyHolds contains children
  | and children _ => allHold contains children
  | andNot first rest _ => holds contains first && !anyHolds contains rest
  | or children _ => anyHolds contains children

def allHold (contains : String → String → Bool) : List QueryNode → Bool
  | [] => true
  | node :: nodes => holds contains node && allHold contains nodes

def anyHolds (contains : String → String → Bool) : List QueryNode → Bool
  | [] => false
  | node :: nodes => holds contains node || anyHolds contains nodes

end

mutual

/-- `PushDownWeight`: the weights of inner nodes are multiplied into those of the leaves. -/
def pushDownWeight (factor : ℚ) : QueryNode → QueryNode
  | term text column position weight => term text column position (binary32 (weight * factor))
  | phrase first rest column weight => phrase first rest column (binary32 (weight * factor))
  | not children weight => not (pushDownChildren (binary32 (factor * weight)) children)
  | and children weight => and (pushDownChildren (binary32 (factor * weight)) children)
  | andNot first rest weight => andNot (pushDownWeight (binary32 (factor * weight)) first)
      (pushDownChildren (binary32 (factor * weight)) rest)
  | or children weight => or (pushDownChildren (binary32 (factor * weight)) children)

/-- The loop of `MultiQueryNode::PushDownWeight`. -/
def pushDownChildren (factor : ℚ) : List QueryNode → List QueryNode
  | [] => []
  | node :: nodes => pushDownWeight factor node :: pushDownChildren factor nodes

end

/-! ## Optimisation of one node -/

/-- `NotQueryNode::InnerGetNewOptimizedQueryTree`: the new list of excluded nodes. -/
def notList : List QueryNode → Except QueryError (List QueryNode)
  | [] => .ok []
  | not .. :: _ =>
    .error (.syntaxError "Invalid query statement: NotQueryNode should not have not child")
  | or children _ :: nodes => do
    let list ← notList nodes
    .ok (children ++ list)
  | node :: nodes => do
    let list ← notList nodes
    .ok (node :: list)

/-- `NotQueryNode::InnerGetNewOptimizedQueryTree`. -/
def optimizeNot (children : List QueryNode) : Except QueryError QueryNode :=
  if children = [] then
    .error (.unrecoverable "Invalid query statement: NotQueryNode should have at least 1 children")
  else do
    let list ← notList children
    .ok (not list)

/-- What one child adds to the AND list and to the NOT list of `AndQueryNode`. -/
def andParts : QueryNode → List QueryNode × List QueryNode
  | and children _ => (children, [])
  | not children _ => ([], children)
  | andNot (and children _) rest _ => (children, rest)
  | andNot first rest _ => ([first], rest)
  | node => ([node], [])

/-- The AND list and the NOT list of `AndQueryNode::InnerGetNewOptimizedQueryTree`. -/
def andLists (children : List QueryNode) : List QueryNode × List QueryNode :=
  (children.flatMap fun child => (andParts child).1, children.flatMap fun child =>
    (andParts child).2)

/-- The node built from an AND list and a NOT list. -/
def buildAnd : List QueryNode → List QueryNode → QueryNode
  | [], list => not list
  | list, [] => and list
  | [node], list => andNot node list
  | nodes, list => andNot (and nodes) list

/-- `AndQueryNode::InnerGetNewOptimizedQueryTree`. -/
def optimizeAnd (children : List QueryNode) : Except QueryError QueryNode :=
  if children.length < 2 then
    .error (.unrecoverable "Invalid query statement: AndQueryNode should have at least 2 children")
  else .ok (buildAnd (andLists children).1 (andLists children).2)

/-- The OR list of `OrQueryNode::InnerGetNewOptimizedQueryTree`. -/
def orList : List QueryNode → List QueryNode
  | [] => []
  | or children _ :: nodes => children ++ orList nodes
  | not .. :: nodes => orList nodes
  | node :: nodes => node :: orList nodes

/-- The NOT list of `OrQueryNode::InnerGetNewOptimizedQueryTree`: the lists of the NOT children. -/
def orNotList : List QueryNode → List (List QueryNode)
  | [] => []
  | not children _ :: nodes => children :: orNotList nodes
  | _ :: nodes => orNotList nodes

/-- The operand that a NOT child becomes when an OR of NOT nodes turns into the NOT of an AND. -/
def orOfNot : List QueryNode → QueryNode
  | [node] => node
  | nodes => or nodes

/-- The list with the weight of a term added to the first node that is this term, if there is
one. -/
def mergeTerm : QueryNode → List QueryNode → Option (List QueryNode)
  | term text column position weight, term text' column' position' weight' :: nodes =>
    if text = text' ∧ column = column' ∧ position = position' then
      some (term text' column' position' (binary32 (weight' + weight)) :: nodes)
    else (mergeTerm (term text column position weight) nodes).map
      (term text' column' position' weight' :: ·)
  | term text column position weight, node :: nodes =>
    (mergeTerm (term text column position weight) nodes).map (node :: ·)
  | _, _ => none

/-- The OR list with equal terms merged: `or_list_tmp`. -/
def mergeTerms : List QueryNode → List QueryNode → List QueryNode
  | merged, [] => merged
  | merged, node :: nodes => mergeTerms ((mergeTerm node merged).getD (merged ++ [node])) nodes

/-- `OrQueryNode::InnerGetNewOptimizedQueryTree`. -/
def optimizeOr (children : List QueryNode) : Except QueryError QueryNode :=
  if children.length < 2 then
    .error (.unrecoverable
      "OptimizeInPlaceInner: Unexpected case! AndNotQueryNode should not exist in parser output")
  else if orList children = [] then do
    let node ← optimizeAnd ((orNotList children).map orOfNot)
    .ok (not [node])
  else if orNotList children = [] then
    match mergeTerms [] (orList children) with
    | [node] => .ok node
    | list => .ok (or list)
  else
    .error (.syntaxError
      "Invalid query statement: OrQueryNode should not have both not child and non-not child")

mutual

/-- `MultiQueryNode::GetNewOptimizedQueryTree`, and the cases in which a child is left as it is. -/
def getNewOptimizedQueryTree : QueryNode → Except QueryError QueryNode
  | term text column position weight => .ok (term text column position weight)
  | phrase first rest column weight => .ok (phrase first rest column weight)
  | andNot .. => .error
      (.unrecoverable
      "GetNewOptimizedQueryTree: Unexpected case! AndNotQueryNode should not exist in parser output")
  | not children _ => do optimizeNot (← optimizeChildren children)
  | and children _ => do optimizeAnd (← optimizeChildren children)
  | or children _ => do optimizeOr (← optimizeChildren children)

def optimizeChildren : List QueryNode → Except QueryError (List QueryNode)
  | [] => .ok []
  | node :: nodes => do
    let node' ← getNewOptimizedQueryTree node
    let nodes' ← optimizeChildren nodes
    .ok (node' :: nodes')

end

/-- `QueryNode::GetOptimizedQueryTree` for a tree of the parser. -/
def getOptimizedQueryTree (root : QueryNode) : Except QueryError QueryNode :=
  match root.pushDownWeight 1 with
  | term text column position weight => .ok (term text column position weight)
  | phrase first rest column weight => .ok (phrase first rest column weight)
  | not .. =>
    .error (.syntaxError "Invalid query statement: NotQueryNode should not be on the top level")
  | andNot .. => .error (.unrecoverable "Unexpected AndNotQueryNode from parser output")
  | root => do
    match ← getNewOptimizedQueryTree root with
    | not .. =>
      .error (.syntaxError "Invalid query statement: NotQueryNode should not be on the top level")
    | node => .ok node

variable {node node' : QueryNode} {nodes nodes' list children : List QueryNode}
    {contains : String → String → Bool}

/-! ## Meaning, weights and normal form -/

mutual

/-- The weights of a term, a column and a position in the part of a tree that is not negated. -/
def weights (key : String × String × Bool) : QueryNode → Multiset ℚ
  | term text column position weight => if (text, column, position) = key then {weight} else 0
  | phrase .. => 0
  | not .. => 0
  | and children _ => allWeights key children
  | andNot first _ _ => weights key first
  | or children _ => allWeights key children

@[inherit_doc weights]
def allWeights (key : String × String × Bool) : List QueryNode → Multiset ℚ
  | [] => 0
  | node :: nodes => weights key node + allWeights key nodes

end

def isNot : QueryNode → Bool
  | not .. => true
  | _ => false

def andOperand : QueryNode → Bool
  | term .. | phrase .. | or .. => true
  | _ => false

def firstOperand : QueryNode → Bool
  | not .. | andNot .. => false
  | _ => true

def orOperand : QueryNode → Bool
  | not .. | or .. => false
  | _ => true

mutual

/-- Every inner node of the tree has children, and they are of the kinds that are allowed under
it. -/
def normal : QueryNode → Bool
  | term .. => true
  | phrase .. => true
  | and children _ => !children.isEmpty && allNormal andOperand children
  | andNot first rest _ => firstOperand first && normal first && allNormal orOperand rest
  | not children _ => !children.isEmpty && allNormal orOperand children
  | or children _ => !children.isEmpty && allNormal orOperand children

def allNormal (kind : QueryNode → Bool) : List QueryNode → Bool
  | [] => true
  | node :: nodes => kind node && normal node && allNormal kind nodes

end

/-- Whether a node becomes a NOT node, by whether its children do; `none` if it is a NOT over a NOT,
or an OR of NOT nodes and others. -/
def notSign (l : List Bool) : Option Bool := if true ∈ l then none else some true

@[inherit_doc notSign]
def orSign (l : List Bool) : Option Bool :=
  if false ∉ l then some true else if true ∉ l then some false else none

mutual

/-- Whether a tree becomes a NOT node; `none` if a NOT cannot be absorbed. -/
def sign : QueryNode → Option Bool
  | term .. => some false
  | phrase .. => some false
  | andNot .. => none
  | not children _ => (signs children).bind notSign
  | and children _ => (signs children).bind fun l => some (l.all id)
  | or children _ => (signs children).bind orSign

def signs : List QueryNode → Option (List Bool)
  | [] => some []
  | node :: nodes => (sign node).bind fun s => (signs nodes).map (s :: ·)

end

mutual

/-- A tree of the parser. -/
def wellFormed : QueryNode → Bool
  | term .. => true
  | phrase .. => true
  | andNot .. => false
  | not children _ => 1 ≤ children.length && allWellFormed children
  | and children _ => 2 ≤ children.length && allWellFormed children
  | or children _ => 2 ≤ children.length && allWellFormed children

def allWellFormed : List QueryNode → Bool
  | [] => true
  | node :: nodes => wellFormed node && allWellFormed nodes

end

/-- The trees mean the same, with the same weights. -/
structure Rewrites (node node' : QueryNode) : Prop where
  holds : ∀ contains, holds contains node' = QueryNode.holds contains node
  weight : ∀ key, AddsUp binary32 (weights key node) (weights key node')
  normal : normal node' = true

/-- A tree and what it is optimised to. -/
structure Optimised (node node' : QueryNode) : Prop extends Rewrites node node' where
  sign : sign node = some node'.isNot

/-- The same for children. -/
structure AllOptimised (nodes nodes' : List QueryNode) : Prop where
  length : nodes'.length = nodes.length
  all : ∀ contains, allHold contains nodes' = allHold contains nodes
  any : ∀ contains, anyHolds contains nodes' = anyHolds contains nodes
  weight : ∀ key, AddsUp binary32 (allWeights key nodes) (allWeights key nodes')
  normal : ∀ node ∈ nodes', QueryNode.normal node = true
  signs : signs nodes = some (nodes'.map isNot)

def RuleOk (rule : List QueryNode → Except QueryError QueryNode) (mk : List QueryNode → QueryNode)
    (combine : List Bool → Option Bool) (least : ℕ) : Prop :=
  ∀ children, (∀ child ∈ children, normal child = true) → Outcome (rule children)
    (fun node => Rewrites (mk children) node ∧ combine (children.map isNot) = some node.isNot)
    (fun e => children.length < least ∨ combine (children.map isNot) = none ∧
    ∃ m, e = .syntaxError m)

/-! ## Rules -/

section Rules

attribute [local simp] holds allHold anyHolds weights allWeights normal allNormal isNot.eq_1
  isNot.eq_2
  andOperand.eq_1 andOperand.eq_2 andOperand.eq_3 andOperand.eq_4 firstOperand.eq_1
  firstOperand.eq_2 firstOperand.eq_3 orOperand.eq_1 orOperand.eq_2 orOperand.eq_3

section Append

variable (nodes nodes' : List QueryNode)

@[simp] theorem allHold_append :
    allHold contains (nodes ++ nodes') = (allHold contains nodes && allHold contains nodes') := by
  induction nodes with
  | nil => simp
  | cons node nodes ih => simp [ih, Bool.and_assoc]

@[simp] theorem anyHolds_append :
    anyHolds contains (nodes ++ nodes') =
    (anyHolds contains nodes || anyHolds contains nodes') := by
  induction nodes with
  | nil => simp
  | cons node nodes ih => simp [ih, Bool.or_assoc]

@[simp] theorem allWeights_append (key : String × String × Bool) :
    allWeights key (nodes ++ nodes') = allWeights key nodes + allWeights key nodes' := by
  induction nodes with
  | nil => simp
  | cons node nodes ih => simp [ih, add_assoc]

@[simp] theorem allNormal_append (kind : QueryNode → Bool) :
    allNormal kind (nodes ++ nodes') = (allNormal kind nodes && allNormal kind nodes') := by
  induction nodes with
  | nil => simp
  | cons node nodes ih => simp [ih, Bool.and_assoc]

end Append

mutual

theorem holds_pushDownWeight : ∀ (node : QueryNode) (factor : ℚ),
    holds contains (pushDownWeight factor node) = holds contains node
  | term .., _ | phrase .., _ => by simp [pushDownWeight]
  | not children _, _ | and children _, _ | or children _, _ => by
    simp [pushDownWeight, hold_pushDownChildren children]
  | andNot first rest _, _ => by
    simp [pushDownWeight, holds_pushDownWeight first, hold_pushDownChildren rest]

theorem hold_pushDownChildren : ∀ (nodes : List QueryNode) (factor : ℚ),
    allHold contains (pushDownChildren factor nodes) = allHold contains nodes ∧
      anyHolds contains (pushDownChildren factor nodes) = anyHolds contains nodes
  | [], _ => by simp [pushDownChildren]
  | node :: nodes, factor => by
    simp [pushDownChildren, holds_pushDownWeight node, hold_pushDownChildren nodes factor]

end

theorem notList_outcome (h : ∀ node ∈ nodes, normal node) :
    Outcome (notList nodes) (fun list =>
        (∀ contains, anyHolds contains list = anyHolds contains nodes) ∧
        (nodes ≠ [] → list ≠ []) ∧ allNormal orOperand list ∧ true ∉ nodes.map isNot)
      (fun e => true ∈ nodes.map isNot ∧ ∃ m, e = .syntaxError m) := by
  induction nodes with
  | nil => simp [Outcome, notList]
  | cons node nodes ih =>
    obtain ⟨hnode, hnodes⟩ := forall_mem_cons.mp h
    have ih := ih hnodes
    cases node with
    | not => exact ⟨by simp, _, rfl⟩
    | _ =>
      refine (ih.imp (fun _ => id) fun e he => ⟨mem_cons_of_mem _ he.1, he.2⟩).bind
        fun list hlist => ?_
      simp_all [Outcome]

theorem optimizeNot_ok : RuleOk optimizeNot (not ·) notSign 1 := by
  intro children h
  refine Outcome.ite (fun hnil => .inl (by simp [hnil])) fun hne =>
    ((notList_outcome h).imp (fun _ => id) fun e he => .inr ⟨if_pos he.1, he.2⟩).bind
      fun list hlist => ?_
  obtain ⟨hany, hnil, hnormal, hnone⟩ := hlist
  exact ⟨⟨by simp [hany], fun _ => .refl, by simp [hnil hne, hnormal]⟩, if_neg hnone⟩

theorem andParts_spec :
    (∀ contains, holds contains node =
      (allHold contains (andParts node).1 && !anyHolds contains (andParts node).2)) ∧
      (∀ key, weights key node = allWeights key (andParts node).1) ∧
      (normal node → allNormal andOperand (andParts node).1 ∧
        allNormal orOperand (andParts node).2 ∧
        ((andParts node).1 = [] ↔ node.isNot) ∧
        ((andParts node).1 = [] → (andParts node).2 ≠ [])) := by
  cases node with
  | andNot first rest => cases first <;> simp +contextual [andParts]
  | term | phrase | not | and | or => simp +contextual [andParts]

theorem andLists_spec : (∀ contains, allHold contains children =
        (allHold contains (andLists children).1 && !anyHolds contains (andLists children).2)) ∧
      (∀ key, allWeights key children = allWeights key (andLists children).1) ∧
      ((∀ child ∈ children, normal child) →
        allNormal andOperand (andLists children).1 ∧ allNormal orOperand (andLists children).2 ∧
        ((andLists children).1 = [] ↔ ∀ child ∈ children, child.isNot) ∧
        ((andLists children).1 = [] → (andLists children).2 = [] → children = [])) := by
  induction children with
  | nil => simp [andLists]
  | cons child children ih =>
    obtain ⟨hholds, hweight, hnormal⟩ := andParts_spec
    simp only [andLists, flatMap_cons, allHold, allHold_append, anyHolds_append, allWeights,
      allWeights_append, allNormal_append, append_eq_nil_iff] at ih ⊢
    refine ⟨fun contains => ?_, fun key => by rw [hweight, ih.2.1], fun h => ?_⟩
    · rw [hholds, ih.1, Bool.not_or]
      ac_rfl
    · obtain ⟨hchild, hrest⟩ := forall_mem_cons.mp h
      obtain ⟨hand, hnot, hnil, hne⟩ := hnormal hchild
      obtain ⟨hands, hnots, hnils, -⟩ := ih.2.2 hrest
      exact ⟨by simp [hand, hands], by simp [hnot, hnots], by simp [hnil, hnils],
        fun h h' => absurd h'.1 (hne h.1)⟩

theorem firstOperand_of_andOperand (h : andOperand node) : firstOperand node := by
  cases node <;> simp_all

theorem buildAnd_spec (ands nots : List QueryNode) :
    (∀ contains, holds contains (buildAnd ands nots) =
      (allHold contains ands && !anyHolds contains nots)) ∧
      (∀ key, weights key (buildAnd ands nots) = allWeights key ands) ∧
      (allNormal andOperand ands → allNormal orOperand nots → (ands = [] → nots ≠ []) →
        normal (buildAnd ands nots)) ∧
      (buildAnd ands nots).isNot = ands.isEmpty ∧ (ands ≠ [] → orOperand (buildAnd ands nots)) := by
  unfold buildAnd
  split <;> simp +contextual [firstOperand_of_andOperand] <;> simp_all

theorem rewrites_buildAnd (h : ∀ child ∈ children, normal child) (hne : children ≠ []) :
    Rewrites (and children) (buildAnd (andLists children).1 (andLists children).2) ∧
      (buildAnd (andLists children).1 (andLists children).2).isNot = (children.map isNot).all id ∧
      ((∃ child ∈ children, child.isNot = false) →
        orOperand (buildAnd (andLists children).1 (andLists children).2)) := by
  obtain ⟨hholds, hweight, hnormal⟩ := andLists_spec
  obtain ⟨hand, hnot, hnil, hnil'⟩ := hnormal h
  obtain ⟨hholds', hweight', hnormal', hisNot, hkind⟩ :=
    buildAnd_spec (andLists children).1 (andLists children).2
  refine ⟨⟨fun contains => ?_, fun key => ?_, ?_⟩, ?_, fun h => hkind ?_⟩
  · rw [holds, hholds, hholds']
  · rw [weights, hweight, hweight']
    exact .refl
  · exact hnormal' hand hnot fun h h' => hne (hnil' h h')
  · rw [hisNot, Bool.eq_iff_iff, List.isEmpty_iff, hnil]
    simp
  · simpa [hnil] using h

theorem optimizeAnd_ok : RuleOk optimizeAnd (and ·) (fun l => some (l.all id)) 2 := by
  intro children h
  refine Outcome.ite .inl fun hlen => ?_
  obtain ⟨hrewrites, hisNot, -⟩ := rewrites_buildAnd h (ne_nil_of_length_pos (by omega))
  exact ⟨hrewrites, congrArg some hisNot.symm⟩

theorem orLists_spec : (∀ contains, anyHolds contains children =
        (anyHolds contains (orList children) || (orNotList children).any fun list =>
      !anyHolds contains list)) ∧
      (∀ key, allWeights key children = allWeights key (orList children)) ∧
      ((∀ child ∈ children, normal child) → allNormal orOperand (orList children) ∧
        (∀ list ∈ orNotList children, list ≠ [] ∧ allNormal orOperand list) ∧
        (orList children = [] ↔ false ∉ children.map isNot) ∧ (orNotList children).length =
        children.countP isNot) := by
  induction children with
  | nil => simp [orList, orNotList]
  | cons child children ih =>
    obtain ⟨hholds, hweight, hnormal⟩ := ih
    refine ⟨fun contains => ?_, fun key => ?_, fun h => ?_⟩
    · cases child <;> simp [orList, orNotList, hholds, Bool.or_assoc, Bool.or_left_comm]
    · cases child <;> simp [orList, hweight]
    · cases child <;> simp_all [orList, orNotList]

theorem orOfNot_spec : (∀ contains, holds contains (orOfNot list) = anyHolds contains list) ∧
      (list ≠ [] → allNormal orOperand list → normal (orOfNot list) ∧
      (orOfNot list).isNot = false) := by
  unfold orOfNot
  split
  next node => cases node <;> simp
  · simp +contextual

theorem allHold_orOfNot (lists : List (List QueryNode)) :
    allHold contains (lists.map orOfNot) = !lists.any fun list => !anyHolds contains list := by
  induction lists with
  | nil => rfl
  | cons list lists ih => simp [ih, (orOfNot_spec).1]

theorem mergeTerm_spec (h : mergeTerm node nodes = some list) :
    (∀ contains, anyHolds contains list = (anyHolds contains nodes || holds contains node)) ∧
      (∀ key, AddsUp binary32 (allWeights key nodes + weights key node) (allWeights key list)) ∧
      list ≠ [] ∧ allNormal orOperand list = allNormal orOperand nodes := by
  fun_induction mergeTerm node nodes generalizing list with
  | case1 _ _ _ weight _ _ _ weight' rest hsame =>
    obtain ⟨rfl, rfl, rfl⟩ := hsame
    cases h
    refine ⟨by simp [Bool.or_right_comm], fun key => ?_, by simp, by simp⟩
    simp only [allWeights, weights]
    split
    next =>
      rw [add_right_comm, add_assoc]
      exact AddsUp.two binary32 weight' weight (allWeights key rest)
    next => simpa using .refl
  | case2 _ _ _ _ _ _ _ _ _ _ ih | case3 _ _ _ _ _ _ _ ih =>
    obtain ⟨rest, hrest, rfl⟩ := Option.map_eq_some_iff.mp h
    obtain ⟨hholds, hweight, -, hnormal⟩ := ih hrest
    refine ⟨by simp [hholds, Bool.or_assoc], fun key => ?_, by simp, by simp [hnormal]⟩
    simpa [add_assoc] using AddsUp.add .refl (hweight key)
  | case4 => cases h

theorem mergeTerms_spec (merged nodes : List QueryNode) :
    (∀ contains, anyHolds contains (mergeTerms merged nodes) =
      (anyHolds contains merged || anyHolds contains nodes)) ∧
      (∀ key, AddsUp binary32 (allWeights key merged + allWeights key nodes)
        (allWeights key (mergeTerms merged nodes))) ∧
      (mergeTerms merged nodes = [] → merged = [] ∧ nodes = []) ∧
      (allNormal orOperand merged → allNormal orOperand nodes →
        allNormal orOperand (mergeTerms merged nodes)) := by
  induction nodes generalizing merged with
  | nil =>
    exact ⟨by simp [mergeTerms], fun key => by simpa [mergeTerms] using .refl, by simp [mergeTerms],
      by simp [mergeTerms]⟩
  | cons node nodes ih =>
    rw [mergeTerms]
    cases h : mergeTerm node merged with
    | none =>
      obtain ⟨hholds, hweight, hne, hnormal⟩ := ih (merged ++ [node])
      exact ⟨by simp [hholds, Bool.or_assoc], fun key => by simpa [add_assoc] using hweight key,
        fun h => by simpa using hne h, by simp_all⟩
    | some list =>
      obtain ⟨hholds, hweight, hne, hnormal⟩ := ih list
      obtain ⟨hholds', hweight', hne', hnormal'⟩ := mergeTerm_spec h
      refine ⟨by simp [hholds, hholds', Bool.or_assoc], fun key => ?_,
        fun h => absurd (hne h).1 hne', by simp_all⟩
      rw [allWeights, ← add_assoc]
      exact ((hweight' key).add_right (allWeights key nodes)).trans (hweight key)

theorem optimizeOr_ok : RuleOk optimizeOr (or ·) orSign 2 := by
  intro children h
  obtain ⟨hholds, hweight, hnormal⟩ := orLists_spec
  obtain ⟨hor, hlists, hnil, hlen⟩ := hnormal h
  refine Outcome.ite .inl fun hlen2 => Outcome.ite (fun hnil' => ?_) fun hnil' =>
    Outcome.ite (fun hnot => ?_) fun hnot => ?_
  · -- only NOT children: their disjunction is the negation of a conjunction
    have hall : ∀ node ∈ (orNotList children).map orOfNot, normal node ∧ node.isNot = false :=
      forall_mem_map.mpr fun list hlist =>
        (orOfNot_spec).2 (hlists list hlist).1 (hlists list hlist).2
    have hcount : children.countP isNot = children.length := by
      simpa [countP_eq_length] using hnil.mp hnil'
    have hlen' : ((orNotList children).map orOfNot).length = children.length := by
      rw [length_map, hlen, hcount]
    obtain ⟨operand, hoperand⟩ :=
      exists_mem_of_length_pos (show 0 < ((orNotList children).map orOfNot).length by omega)
    obtain ⟨hrewrites, -, hkind⟩ :=
      rewrites_buildAnd (fun node hnode => (hall node hnode).1) (ne_nil_of_mem hoperand)
    rw [optimizeAnd, if_neg (by omega)]
    refine ⟨⟨fun contains => ?_, fun key => ?_, ?_⟩, if_pos (hnil.mp hnil')⟩
    · simp [hrewrites.holds, allHold_orOfNot, hholds, hnil']
    · simpa [hweight, hnil'] using .refl
    · simp [hkind ⟨operand, hoperand, (hall operand hoperand).2⟩, hrewrites.normal]
  · have htrue : true ∉ children.map isNot := by
      rw [hnot, length_nil, eq_comm, countP_eq_zero] at hlen
      simpa using hlen
    obtain ⟨hholds', hweight', hne, hmerged⟩ := mergeTerms_spec [] (orList children)
    have hsign : orSign (children.map isNot) = some false := by
      rw [orSign, if_neg (hnil.not.mp hnil'), if_pos htrue]
    split
    next node heq =>
      simp only [heq] at hmerged hholds' hweight'
      refine ⟨⟨by simpa [hholds, hnot] using hholds', by simpa [hweight] using hweight', ?_⟩,
        ?_⟩ <;> cases node <;> simp_all
    · exact ⟨⟨by simp [hholds, hnot, hholds'], by simpa [hweight] using hweight', by simp_all⟩,
        hsign⟩
  · refine .inr ⟨?_, _, rfl⟩
    have htrue : true ∈ children.map isNot := by
      by_contra htrue
      refine hnot (length_eq_zero_iff.mp ?_)
      rw [hlen, countP_eq_zero]
      simpa using htrue
    rw [orSign, if_neg (hnil.not.mp hnil'), if_neg (not_not_intro htrue)]

end Rules

/-! ## Whole trees -/

/-- A tree that is accepted is optimised like an inner node, and is no NOT node then. -/
theorem getNew_of_getOptimizedQueryTree (h : getOptimizedQueryTree node = .ok node') :
    getNewOptimizedQueryTree (node.pushDownWeight 1) = .ok node' ∧ ∀ children weight,
    node' ≠ not children weight := by
  unfold getOptimizedQueryTree at h
  generalize node.pushDownWeight 1 = root at h
  cases root with
  | term | phrase =>
    cases h
    exact ⟨rfl, nofun⟩
  | not | andNot => cases h
  | and | or =>
    obtain ⟨inner, hinner, h⟩ := bind_eq_ok.mp h
    split at h <;> cases h
    next hne => exact ⟨hinner, hne⟩

/-- The rule of a node, behind the optimisation of its children. -/
theorem RuleOk.outcome {rule : List QueryNode → Except QueryError QueryNode}
    {mk : List QueryNode → QueryNode} {combine : List Bool → Option Bool} {least : ℕ}
    (h : RuleOk rule mk combine least)
      (hchildren : Outcome (optimizeChildren children) (AllOptimised children) (fun e =>
    allWellFormed children → signs children = none ∧ ∃ m, e = .syntaxError m))
    (hmk : ∀ children', AllOptimised children children' →
      (∀ contains, holds contains (mk children') = holds contains node) ∧
      ∀ key, AddsUp binary32 (weights key node) (weights key (mk children')))
    (hwf : wellFormed node = (decide (least ≤ children.length) && allWellFormed children))
    (hsign : sign node = (signs children).bind combine) :
      Outcome (optimizeChildren children >>= rule) (Optimised node)
      (fun e => wellFormed node → sign node = none ∧ ∃ m, e = .syntaxError m) := by
  rw [hwf, hsign, Bool.and_eq_true, decide_eq_true_iff]
  refine (hchildren.imp (fun _ => id) fun e he hwf => ?_).bind fun children' hall =>
    (h children' hall.normal).imp (fun node' hnode => ?_) fun e he hwf => ?_
  · obtain ⟨hnone, hm⟩ := he hwf.2
    exact ⟨by rw [hnone]; rfl, hm⟩
  · obtain ⟨hholds, hweight⟩ := hmk children' hall
    obtain ⟨hrewrites, hcombine⟩ := hnode
    exact ⟨⟨fun c => (hrewrites.holds c).trans (hholds c), fun key =>
      (hweight key).trans (hrewrites.weight key),
      hrewrites.normal⟩, by rw [hsign, hall.signs]; exact hcombine⟩
  · rcases he with hlt | ⟨hnone, hm⟩
    · rw [hall.length] at hlt
      omega
    · exact ⟨by rw [hall.signs]; exact hnone, hm⟩

mutual

/-- **What the optimisation achieves, and when it fails.** -/
theorem getNewOptimizedQueryTree_outcome :
    ∀ node : QueryNode, Outcome (getNewOptimizedQueryTree node) (Optimised node)
    (fun e => wellFormed node → sign node = none ∧ ∃ m, e = .syntaxError m)
  | term .. | phrase .. => ⟨⟨fun _ => rfl, fun _ => .refl, rfl⟩, rfl⟩
  | andNot .. => nofun
  | not children _ => optimizeNot_ok.outcome (optimizeChildren_outcome children)
      (fun _ h => ⟨fun c => congrArg Bool.not (h.any c), fun _ => .refl⟩) rfl rfl
  | and children _ => optimizeAnd_ok.outcome (optimizeChildren_outcome children)
      (fun _ h => ⟨h.all, h.weight⟩) rfl rfl
  | or children _ => optimizeOr_ok.outcome (optimizeChildren_outcome children)
      (fun _ h => ⟨h.any, h.weight⟩) rfl rfl

theorem optimizeChildren_outcome :
    ∀ nodes : List QueryNode, Outcome (optimizeChildren nodes) (AllOptimised nodes)
    (fun e => allWellFormed nodes → signs nodes = none ∧ ∃ m, e = .syntaxError m)
  | [] => ⟨rfl, fun _ => rfl, fun _ => rfl, fun _ => .refl, nofun, rfl⟩
  | node :: nodes => by
    refine ((getNewOptimizedQueryTree_outcome node).imp (fun _ => id) fun e he hwf => ?_).bind
        fun node' hnode =>
      ((optimizeChildren_outcome nodes).imp (fun _ => id) fun e he hwf => ?_).bind
        fun nodes' hnodes => ?_
    · obtain ⟨hnone, hm⟩ := he (Bool.and_eq_true_iff.mp hwf).1
      simp [signs, hnone, hm]
    · obtain ⟨hnone, hm⟩ := he (Bool.and_eq_true_iff.mp hwf).2
      simp [signs, hnone, hm]
    · constructor
      · simp [hnodes.length]
      · simp [allHold, hnode.holds, hnodes.all]
      · simp [anyHolds, hnode.holds, hnodes.any]
      · exact fun key => (hnode.weight key).add (hnodes.weight key)
      · exact forall_mem_cons.mpr ⟨hnode.normal, hnodes.normal⟩
      · simp [signs, hnode.sign, hnodes.signs]

end

/-- **The optimised tree means the tree of the parser.** -/
theorem holds_getOptimizedQueryTree (contains : String → String → Bool)
    (h : getOptimizedQueryTree node = .ok node') : holds contains node' = holds contains node :=
  (((getNewOptimizedQueryTree_outcome _).of_eq_ok (getNew_of_getOptimizedQueryTree h).1).holds
    contains).trans (holds_pushDownWeight node 1)

/-- **An optimised tree is in normal form**, and no NOT node is left. -/
theorem normal_getOptimizedQueryTree (h : getOptimizedQueryTree node = .ok node') :
    normal node' ∧ isNot node' = false := by
  obtain ⟨hnew, hne⟩ := getNew_of_getOptimizedQueryTree h
  refine ⟨((getNewOptimizedQueryTree_outcome _).of_eq_ok hnew).normal, ?_⟩
  cases node' with
  | not children weight => exact absurd rfl (hne children weight)
  | term | phrase | and | andNot | or => rfl

/-- Three occurrences of one term in an OR, of the weights `2 ^ 24`, 1 and 1. Each 1 is lost when it
is added. -/
def heavyTerm : QueryNode :=
  or [term "a" "body" false 16777216, term "a" "body" false, term "a" "body" false]

end QueryNode

end Infinity.Search
