import DecodingProxy.Lib.Alike
import DecodingProxy.XmlGraph.XmlSchema

/-!
# What the graph of a pipe keeps

`BuildPipes` fails as the outline of the pipe does, and the graph it makes gives the outline back:
its nodes with their levels are the preorder of the outline, and an edge follows its node.
-/

namespace DecodingProxy.XmlGraph
open DecodingProxy.Runs DecodingProxy.Runtime

variable {τ : Type}

/-! ### The elements of a graph in the order of their identifiers -/

/-- The element with an identifier. -/
def XGraph.get (graph : XGraph τ) (id : ℕ) : Option (XGraphElement τ) :=
  AList.lookup id graph.elements

section Lists
variable {graph : XGraph τ} {l : List (XGraphElement τ)} {old el : XGraphElement τ}

structure Lists (graph : XGraph τ) (l : List (XGraphElement τ)) : Prop where
  counter : graph.counter = l.length
  zero : graph.get 0 = none
  succ : ∀ i, graph.get (i + 1) = l[i]?

theorem lists_empty : Lists ({} : XGraph τ) [] where
  counter := rfl
  zero := rfl
  succ i := by
    rw [List.getElem?_nil]
    rfl

theorem Lists.add (h : Lists graph l) (el : ℕ → XGraphElement τ) :
    ∃ graph', graph.add el = .ok (graph', l.length + 1) ∧
      Lists graph' (l ++ [el (l.length + 1)]) := by
  have hfree : l.length + 1 ∉ graph.elements := by
    have hnone : AList.lookup (l.length + 1) graph.elements = none := by
      rw [← List.getElem?_eq_none (le_refl l.length)]
      exact h.succ l.length
    rw [Dictionary.mem_iff_lookup, hnone]
    simp
  obtain ⟨hmem, -⟩ | ⟨elements, -, hadd⟩ :=
    Dictionary.add_cases graph.elements (l.length + 1) (el (l.length + 1))
  · exact absurd hmem hfree
  have hget : ∀ id, XGraph.get ⟨elements, l.length + 1⟩ id =
      if id = l.length + 1 then some (el (l.length + 1)) else graph.get id :=
    Dictionary.lookup_of_add hadd
  refine ⟨⟨elements, l.length + 1⟩, ?_, ?_, ?_, ?_⟩
  · unfold XGraph.add
    rw [h.counter, do_of_ok hadd]
  · simp
  · rw [hget, if_neg (Nat.succ_ne_zero _).symm, h.zero]
  · intro i
    rw [hget, h.succ]
    by_cases hi : i = l.length
    · subst hi
      simp
    · rw [if_neg (by omega), List.getElem?_append]
      split_ifs with hlt
      · rfl
      · rw [List.getElem?_eq_none (by omega), List.getElem?_eq_none (by simp; omega)]

theorem Lists.assign (h : Lists graph (l ++ [old])) (hid : el.id = l.length + 1) :
    Lists (graph.assign el) (l ++ [el]) where
  counter := by
    have hcounter := h.counter
    rw [List.length_append, List.length_singleton] at hcounter ⊢
    exact hcounter
  zero := by
    rw [XGraph.get, XGraph.assign, AList.lookup_insert_ne (by omega)]
    exact h.zero
  succ i := by
    rw [XGraph.get, XGraph.assign]
    by_cases hi : i = l.length
    · rw [hid, hi, AList.lookup_insert, List.getElem?_concat_length]
    · have hsucc : AList.lookup (i + 1) graph.elements = (l ++ [old])[i]? := h.succ i
      rw [AList.lookup_insert_ne (by omega), hsucc, List.getElem?_append, List.getElem?_append]
      split_ifs with hlt
      · rfl
      · rw [List.getElem?_eq_none (by simp; omega), List.getElem?_eq_none (by simp; omega)]

/-- The elements, by ascending identifiers. -/
def XGraph.listed (graph : XGraph τ) : List (XGraphElement τ) :=
  (List.range graph.counter).filterMap fun i => graph.get (i + 1)

theorem Lists.listed (h : Lists graph l) : graph.listed = l := by
  have hget : (fun i => graph.get (i + 1)) = (l[·]?) := funext h.succ
  rw [XGraph.listed, h.counter, hget]
  clear h hget
  induction l using List.reverseRecOn with
  | nil => rfl
  | append_singleton l el ih =>
    have hfront : (List.range l.length).filterMap ((l ++ [el])[·]?) =
        (List.range l.length).filterMap (l[·]?) := by
      apply List.filterMap_congr
      intro i hi
      exact List.getElem?_append_left (List.mem_range.mp hi)
    rw [List.length_append, List.length_singleton, List.range_succ, List.filterMap_append, hfront,
      ih]
    simp

end Lists

/-! ### The elements that are made of an outline -/

def edgeOf (id parentNode node : ℕ) : Option ℤ → List (XGraphElement τ)
  | none => []
  | some mode => [.edge ⟨id, some parentNode, some node, mode⟩]

/-- A node, and the edge into it, behind `count` elements. -/
def ownElements (count level parentNode : ℕ) (item : Item τ) : List (XGraphElement τ) :=
  .node ⟨count + 1, level, item.type⟩ :: edgeOf (count + 2) parentNode (count + 1) item.mode

def drawn (count level parentNode : ℕ) : Forest (Item τ) → List (XGraphElement τ)
  | .nil => []
  | .node item children next =>
    let own := ownElements count (level + 1) parentNode item
    let front := own ++ drawn (count + own.length) (level + 1) (count + 1) children
    front ++ drawn (count + front.length) level parentNode next

theorem drawn_append (count level parentNode : ℕ) (f g : Forest (Item τ)) :
    drawn count level parentNode (f.append g) =
      drawn count level parentNode f ++
        drawn (count + (drawn count level parentNode f).length) level parentNode g := by
  induction f generalizing count with
  | nil => rfl
  | node item children next _ ih =>
    rw [Forest.append, drawn, ih, drawn]
    simp only [List.append_assoc, List.length_append, Nat.add_assoc]

/-! ### The pass over the elements -/

section Pass
variable {typeSearch : Str → Option τ} {graph : XGraph τ} {l : List (XGraphElement τ)}
  {context : BuildContext} {element : XElement} {parentNode : ℕ}

theorem buildEdge_alike (h : Lists graph l) (node : ℕ) :
    Alike (fun graph' mode => Lists graph' (l ++ edgeOf (l.length + 1) parentNode node mode))
      (buildEdge graph element parentNode node) (modeOf element) := by
  unfold buildEdge modeOf
  cases element.attribute "AdvanceMode" with
  | none =>
    refine .ok ?_
    rw [edgeOf, List.append_nil]
    exact h
  | some value =>
    dsimp only
    cases Str.parseEnum EAdvanceMode.names value with
    | error fault => exact .error fault
    | ok mode =>
      obtain ⟨graph', hadd, hlists⟩ := h.add fun id => .edge { id }
      have hedge : graph.newEdge = .ok (graph', l.length + 1) := hadd
      rw [do_of_ok rfl, do_of_ok hedge]
      exact .ok (hlists.assign rfl)

theorem buildNode_alike (h : Lists graph l) :
    Alike (fun built item => built.1.currentLevel = context.currentLevel + 1 ∧
        built.2.2 = l.length + 1 ∧ Lists built.2.1
          (l ++ ownElements l.length (context.currentLevel + 1) parentNode item))
      (buildNode typeSearch context graph element parentNode) (itemOf typeSearch element) := by
  obtain ⟨graph', hadd, hlists⟩ := h.add fun id => .node { id }
  have hnode : graph.newNode = .ok (graph', l.length + 1) := hadd
  unfold buildNode itemOf
  dsimp only
  rw [do_of_ok hnode]
  refine Alike.bind_same fun headType => Alike.bind_same fun type => ?_
  have hassign : Lists _ (l ++ [.node ⟨l.length + 1, context.currentLevel + 1, some type⟩]) :=
    hlists.assign rfl
  refine (buildEdge_alike hassign (l.length + 1)).bind fun graph'' mode hedge => .ok ⟨rfl, rfl, ?_⟩
  rw [List.append_assoc, List.length_append, List.length_singleton] at hedge
  exact hedge

/-- What a call has made of the elements of a forest behind those in `l`. -/
structure Draws (l : List (XGraphElement τ)) (level parentNode : ℕ)
    (built : BuildContext × XGraph τ) (forest : Forest (Item τ)) : Prop where
  kept : built.1.currentLevel = level
  lists : Lists built.2 (l ++ drawn l.length level parentNode forest)

theorem aroundLoop_alike {level : ℕ}
    {loop : BuildContext → Except Fault (BuildContext × XGraph τ)}
    {said : Except Fault (Forest (Item τ))}
    (h : Alike (Draws l level parentNode) (loop { context with currentSiblind := 0 }) said) :
    Alike (Draws l level parentNode) (aroundLoop context loop) said := by
  unfold aroundLoop
  generalize loop { context with currentSiblind := 0 } = built at h
  cases h with
  | error fault => exact .error fault
  | ok hdraws => exact .ok ⟨hdraws.kept, hdraws.lists⟩

theorem buildElements_alike (f : XElements) (h : Lists graph l) {level : ℕ}
    (hlevel : context.currentLevel = level) :
    Alike (Draws l level parentNode)
      (buildElements typeSearch f context graph parentNode) (outline typeSearch f) := by
  induction f generalizing graph l context parentNode level with
  | nil =>
    refine .ok ⟨hlevel, ?_⟩
    rw [drawn, List.append_nil]
    exact h
  | node element children next below behind =>
    rw [buildElements, outline]
    split_ifs with hnode hwithin
    · refine (buildNode_alike h).bind fun built item hbuilt => ?_
      obtain ⟨hnodeLevel, hid, hown⟩ := hbuilt
      rw [hlevel] at hnodeLevel hown
      have hinside : ({ built.1 with currentSiblind := 0 } : BuildContext).currentLevel =
        level + 1 := hnodeLevel
      refine (aroundLoop_alike (below hown hinside)).bind fun inner forest hinner => ?_
      have hback : inner.1.currentLevel - 1 = level := by
        rw [hinner.kept]
        omega
      refine (behind hinner.lists hback).ok_behind fun last forest' hlast => ⟨hlast.kept, ?_⟩
      have hlists := hlast.lists
      rw [hid] at hlists
      simp only [List.length_append, List.append_assoc] at hlists
      rw [drawn]
      simp only [List.length_append, List.append_assoc]
      exact hlists
    · have hinside : ({ context with currentSiblind := 0 } : BuildContext).currentLevel = level :=
        hlevel
      refine (aroundLoop_alike (below h hinside)).bind fun inner forest hinner => ?_
      refine (behind hinner.lists hinner.kept).ok_behind fun last forest' hlast =>
        ⟨hlast.kept, ?_⟩
      rw [drawn_append, ← List.append_assoc, ← List.length_append]
      exact hlast.lists
    · exact .error _

theorem buildNextNodeRecursive_alike (children : XElements) (h : Lists graph l) {level : ℕ}
    (hlevel : context.currentLevel = level) :
    Alike (Draws l level parentNode)
      (buildNextNodeRecursive typeSearch context graph children parentNode)
      (outline typeSearch children) := by
  have hinside : ({ context with currentSiblind := 0 } : BuildContext).currentLevel = level :=
    hlevel
  exact aroundLoop_alike (buildElements_alike children h hinside)

/-- The graph of an outline with the head at its front. -/
def elementsOf : Forest (Item τ) → List (XGraphElement τ)
  | .nil => []
  | .node item children _ => .node ⟨1, 0, item.type⟩ :: drawn 1 0 1 children

theorem buildPipes_alike (typeSearch : Str → Option τ) (pipe : XElements) :
    Alike (fun graph forest => Lists graph (elementsOf forest) ∧
        ∃ item children, item.mode = none ∧ forest = .node item children .nil)
      (buildPipes typeSearch pipe) (outlinePipe typeSearch pipe) := by
  unfold buildPipes outlinePipe
  refine Alike.bind_same fun head => Alike.bind_same fun headType => ?_
  obtain ⟨graph, hadd, hlists⟩ :=
    lists_empty.add fun id => .node { id, type := typeSearch headType }
  rw [do_of_ok hadd]
  dsimp only
  have hbuilt : Alike (Draws _ 0 1) (buildNextNodeRecursive typeSearch {} graph head.2 1)
    (outline typeSearch head.2) := buildNextNodeRecursive_alike head.2 hlists rfl
  refine hbuilt.bind fun built below hbelow => .ok ⟨hbelow.lists, ?_⟩
  exact ⟨⟨typeSearch headType, none⟩, below, rfl, rfl⟩

end Pass

/-! ### The graph read back -/

/-- The mode of an edge at the front. -/
def modeAtFront : List (XGraphElement τ) → Option ℤ
  | .edge e :: _ => some e.transition
  | _ => none

/-- The nodes with their levels; the edge into a node stands behind it. -/
def items : List (XGraphElement τ) → List (ℕ × Item τ)
  | [] => []
  | .node n :: l => (n.level, ⟨n.type, modeAtFront l⟩) :: items l
  | .edge _ :: l => items l

def XGraph.read (graph : XGraph τ) : Forest (Item τ) := .ofPreorder (items graph.listed)

section Read
variable {rest : List (XGraphElement τ)} {count level parentNode : ℕ}

theorem modeAtFront_drawn (count level parentNode : ℕ) (f : Forest (Item τ))
    (h : modeAtFront rest = none) :
    modeAtFront (drawn count level parentNode f ++ rest) = none := by
  cases f with
  | nil => exact h
  | node item children next => rfl

theorem items_own (item : Item τ) (h : modeAtFront rest = none) :
    items (ownElements count level parentNode item ++ rest) = (level, item) :: items rest := by
  obtain ⟨type, mode⟩ := item
  cases mode with
  | none =>
    change (level, (⟨type, modeAtFront rest⟩ : Item τ)) :: items rest = _
    rw [h]
  | some mode => rfl

theorem items_drawn (count level parentNode : ℕ) (f : Forest (Item τ))
    (h : modeAtFront rest = none) :
    items (drawn count level parentNode f ++ rest) = f.preorder (level + 1) ++ items rest := by
  induction f generalizing count level parentNode rest with
  | nil => rfl
  | node item children next below behind =>
    rw [drawn, Forest.preorder_node]
    simp only [List.append_assoc, List.cons_append]
    have hnext := fun count => modeAtFront_drawn count level parentNode next h
    rw [items_own item (modeAtFront_drawn _ _ _ children (hnext _)), below _ _ _ (hnext _),
      behind _ _ _ h]

theorem read_of_lists {graph : XGraph τ} {item : Item τ} {children : Forest (Item τ)}
    (hmode : item.mode = none)
    (h : Lists graph (elementsOf (.node item children .nil))) :
    graph.read = .node item children .nil := by
  obtain ⟨type, mode⟩ := item
  obtain rfl : mode = none := hmode
  have hend : modeAtFront ([] : List (XGraphElement τ)) = none := rfl
  have hitems := items_drawn 1 0 1 children hend
  have hmodes := modeAtFront_drawn 1 0 1 children hend
  rw [List.append_nil] at hitems hmodes
  have hall : items (elementsOf (.node ⟨type, none⟩ children .nil)) =
      (Forest.node (⟨type, none⟩ : Item τ) children .nil).preorder 0 := by
    rw [elementsOf, items, hmodes, hitems]
    rfl
  rw [XGraph.read, h.listed, hall, Forest.ofPreorder_preorder]

end Read

/-- Reading the graphs of a document back gives the outlines of its pipes; it fails where they do,
with the same exception. -/
theorem parseDocument_read (typeSearch : Str → Option τ) (root : XElement) (children : XElements) :
    (parseDocument typeSearch root children).map (·.map XGraph.read) =
      outlineDocument typeSearch root children := by
  have hpipe : ∀ pipe : XElement × XElements,
      Alike (fun graph forest => XGraph.read graph = forest)
        (buildPipes typeSearch pipe.2) (outlinePipe typeSearch pipe.2) := by
    intro pipe
    refine (buildPipes_alike typeSearch pipe.2).mono fun graph forest h => ?_
    obtain ⟨hlists, item, below, hmode, rfl⟩ := h
    exact read_of_lists hmode hlists
  have halike : Alike (List.Forall₂ fun graph forest => XGraph.read graph = forest)
      (parseDocument typeSearch root children) (outlineDocument typeSearch root children) := by
    unfold parseDocument outlineDocument
    exact Alike.bind_same fun document => Alike.bind_same fun schema => Alike.mapM hpipe _
  have hread : (parseDocument typeSearch root children).map (·.map XGraph.read) =
      (outlineDocument typeSearch root children).map id := by
    refine halike.map_eq fun graphs forests h => ?_
    exact List.forall₂_eq_eq_eq ▸ List.forall₂_map_left_iff.mpr h
  rw [hread]
  cases outlineDocument typeSearch root children with
  | error fault => rfl
  | ok forests => rfl

end DecodingProxy.XmlGraph
