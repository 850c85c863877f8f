import DecodingProxy.XmlGraph.Outlines
import Mathlib.Logic.Relation

/-!
# The edges of a pipe

An edge leads into a node from the one it stands in, wherever the elements between them are left
out. So an edge never goes back, no node has two edges into it, and the nodes that can be come to
from the head are all of them if all have an `AdvanceMode`.
-/

namespace DecodingProxy.XmlGraph
open DecodingProxy.Runs DecodingProxy.Runtime

variable {τ : Type}

/-- The node at `i` is the last one before `j` with a level below that of the node at `j`. -/
structure StandsIn (get : ℕ → Option (XGraphElement τ)) (i j : ℕ) (m n : XNode τ) : Prop where
  outer : get i = some (.node m)
  inner : get j = some (.node n)
  before : i < j
  outer_id : m.id = i
  inner_id : n.id = j
  level : n.level = m.level + 1
  between : ∀ k n', i < k → k < j → get k = some (.node n') → m.level < n'.level

/-- The edge at `k` stands behind the node it leads to, and comes from the node around that. -/
structure LeadsIn (get : ℕ → Option (XGraphElement τ)) (k : ℕ) (e : XEdge) : Prop where
  edge_id : e.id = k
  nodes : ∃ i j m n, k = j + 1 ∧ e.fromNode = some i ∧ e.toNode = some j ∧ StandsIn get i j m n

/-- The element of a listing with an identifier. -/
def elementAt (l : List (XGraphElement τ)) : ℕ → Option (XGraphElement τ)
  | 0 => none
  | k + 1 => l[k]?

section Places
variable {l l' : List (XGraphElement τ)} {k : ℕ} {el : XGraphElement τ}

theorem elementAt_append_left (h : k ≤ l.length) : elementAt (l ++ l') k = elementAt l k := by
  cases k with
  | zero => rfl
  | succ k => exact List.getElem?_append_left h

theorem elementAt_le (h : elementAt l k = some el) : k ≤ l.length := by
  cases k with
  | zero => exact Nat.zero_le _
  | succ k =>
    obtain ⟨hlt, -⟩ := List.getElem?_eq_some_iff.mp h
    exact hlt

theorem elementAt_append_right (l l' : List (XGraphElement τ)) (i : ℕ) :
    elementAt (l ++ l') (l.length + 1 + i) = l'[i]? := by
  have hplace : l.length + 1 + i = l.length + i + 1 := by omega
  rw [hplace, elementAt, List.getElem?_append_right (Nat.le_add_right _ _), Nat.add_sub_cancel_left]

theorem mem_of_elementAt (h : elementAt (l ++ l') k = some el) (hk : l.length < k) : el ∈ l' := by
  cases k with
  | zero => omega
  | succ k =>
    rw [elementAt, List.getElem?_append_right (Nat.le_of_lt_succ hk)] at h
    exact List.mem_of_getElem? h

theorem StandsIn.append {i j : ℕ} {m n : XNode τ} (h : StandsIn (elementAt l) i j m n)
    (l' : List (XGraphElement τ)) : StandsIn (elementAt (l ++ l')) i j m n where
  outer := by
    rw [elementAt_append_left (elementAt_le h.outer)]
    exact h.outer
  inner := by
    rw [elementAt_append_left (elementAt_le h.inner)]
    exact h.inner
  before := h.before
  outer_id := h.outer_id
  inner_id := h.inner_id
  level := h.level
  between k n' hik hkj hn' := by
    have hk : k ≤ l.length := hkj.le.trans (elementAt_le h.inner)
    rw [elementAt_append_left hk] at hn'
    exact h.between k n' hik hkj hn'

def EdgesLead (l : List (XGraphElement τ)) : Prop :=
  ∀ k e, elementAt l k = some (.edge e) → LeadsIn (elementAt l) k e

theorem EdgesLead.append (h : EdgesLead l)
    (h' : ∀ k e, l.length < k → elementAt (l ++ l') k = some (.edge e) →
      LeadsIn (elementAt (l ++ l')) k e) :
    EdgesLead (l ++ l') := by
  intro k e hk
  rcases Nat.lt_or_ge l.length k with hlt | hle
  · exact h' k e hlt hk
  rw [elementAt_append_left hle] at hk
  obtain ⟨hid, i, j, m, n, hj, hfrom, hto, hin⟩ := h k e hk
  exact ⟨hid, i, j, m, n, hj, hfrom, hto, hin.append l'⟩

/-- `parentNode` is the last node up to `level`: what comes next stands in it. -/
structure Within (l : List (XGraphElement τ)) (level parentNode : ℕ) (m : XNode τ) : Prop where
  found : elementAt l parentNode = some (.node m)
  id : m.id = parentNode
  level_eq : m.level = level
  behind : ∀ k n, parentNode < k → elementAt l k = some (.node n) → level < n.level

theorem Within.append {level parentNode : ℕ} {m : XNode τ} (h : Within l level parentNode m)
    (hdeeper : ∀ n, .node n ∈ l' → level < n.level) : Within (l ++ l') level parentNode m where
  found := by
    rw [elementAt_append_left (elementAt_le h.found)]
    exact h.found
  id := h.id
  level_eq := h.level_eq
  behind k n hk hn := by
    rcases Nat.lt_or_ge l.length k with hlt | hle
    · exact hdeeper n (mem_of_elementAt hn hlt)
    · rw [elementAt_append_left hle] at hn
      exact h.behind k n hk hn

end Places

section Drawn
variable {l : List (XGraphElement τ)} {level parentNode : ℕ} {m : XNode τ}

theorem node_mem_own {count : ℕ} {item : Item τ} {n : XNode τ}
    (h : .node n ∈ ownElements count level parentNode item) :
    n = ⟨count + 1, level, item.type⟩ := by
  obtain ⟨type, mode⟩ := item
  rcases List.mem_cons.mp h with h | h
  · exact XGraphElement.node.inj h
  · cases mode with
    | none => cases h
    | some mode => cases List.mem_singleton.mp h

theorem level_lt_of_mem_drawn {f : Forest (Item τ)} {count : ℕ} {n : XNode τ}
    (h : .node n ∈ drawn count level parentNode f) : level < n.level := by
  induction f generalizing count level parentNode with
  | nil => cases h
  | node item children next below behind =>
    rw [drawn, List.mem_append, List.mem_append] at h
    rcases h with (h | h) | h
    · rw [node_mem_own h]
      exact Nat.lt_succ_self level
    · exact (Nat.lt_succ_self level).trans (below h)
    · exact behind h

theorem own_within (l : List (XGraphElement τ)) (level parentNode : ℕ) (item : Item τ) :
    Within (l ++ ownElements l.length level parentNode item) level (l.length + 1)
      ⟨l.length + 1, level, item.type⟩ where
  found := elementAt_append_right l _ 0
  id := rfl
  level_eq := rfl
  behind k n hk hn := by
    obtain ⟨i, rfl⟩ := Nat.exists_eq_add_of_lt hk
    obtain ⟨type, mode⟩ := item
    have hplace : l.length + 1 + i + 1 = l.length + 1 + (i + 1) := by omega
    rw [hplace, elementAt_append_right, ownElements, List.getElem?_cons_succ] at hn
    cases mode with
    | none => cases hn
    | some mode => cases List.mem_singleton.mp (List.mem_of_getElem? hn)

/-- A node is put in, with its edge. -/
theorem own_leads (hedges : EdgesLead l) (hwithin : Within l level parentNode m) (item : Item τ) :
    EdgesLead (l ++ ownElements l.length (level + 1) parentNode item) := by
  refine hedges.append fun k e hk he => ?_
  have hnode := own_within l (level + 1) parentNode item
  have hparent : parentNode ≤ l.length := elementAt_le hwithin.found
  have hstands : StandsIn (elementAt (l ++ ownElements l.length (level + 1) parentNode item))
      parentNode (l.length + 1) m ⟨l.length + 1, level + 1, item.type⟩ :=
    { outer := by
        rw [elementAt_append_left hparent]
        exact hwithin.found
      inner := hnode.found
      before := Nat.lt_succ_of_le hparent
      outer_id := hwithin.id
      inner_id := rfl
      level := congrArg (· + 1) hwithin.level_eq.symm
      between := fun k n' hik hkj hn' => by
        rw [elementAt_append_left (Nat.le_of_lt_succ hkj)] at hn'
        rw [hwithin.level_eq]
        exact hwithin.behind k n' hik hn' }
  obtain ⟨i, rfl⟩ := Nat.exists_eq_add_of_lt hk
  have hplace : l.length + i + 1 = l.length + 1 + i := by omega
  rw [hplace] at he ⊢
  rw [elementAt_append_right] at he
  obtain ⟨type, mode⟩ := item
  cases i with
  | zero => cases he
  | succ i =>
    rw [ownElements, List.getElem?_cons_succ] at he
    cases mode with
    | none => cases he
    | some mode =>
      cases i with
      | zero =>
        cases he
        exact ⟨rfl, parentNode, l.length + 1, m, _, rfl, rfl, rfl, hstands⟩
      | succ i => cases he

theorem drawn_leads (f : Forest (Item τ)) (hedges : EdgesLead l)
    (hwithin : Within l level parentNode m) :
    EdgesLead (l ++ drawn l.length level parentNode f) := by
  induction f generalizing l level parentNode m with
  | nil =>
    rw [drawn, List.append_nil]
    exact hedges
  | node item children next below behind =>
    have hown := own_leads hedges hwithin item
    have hchildren := below hown (own_within l (level + 1) parentNode item)
    have hback : Within (l ++ ownElements l.length (level + 1) parentNode item ++
        drawn (l ++ ownElements l.length (level + 1) parentNode item).length (level + 1)
          (l.length + 1) children) level parentNode m := by
      rw [List.append_assoc]
      refine hwithin.append fun n hn => ?_
      rcases List.mem_append.mp hn with hn | hn
      · rw [node_mem_own hn]
        exact Nat.lt_succ_self level
      · exact (Nat.lt_succ_self level).trans (level_lt_of_mem_drawn hn)
    have hnext := behind hchildren hback
    simp only [List.length_append, List.append_assoc] at hnext
    rw [drawn]
    simp only [List.length_append, List.append_assoc]
    exact hnext

end Drawn

/-! ### The graph of a pipe -/

section Pipe
variable {typeSearch : Str → Option τ} {pipe : XElements} {graph : XGraph τ}

theorem Lists.get_eq {l : List (XGraphElement τ)} (h : Lists graph l) :
    graph.get = elementAt l := by
  funext id
  cases id with
  | zero => exact h.zero
  | succ i => exact h.succ i

theorem elementsOf_leads (item : Item τ) (children : Forest (Item τ)) :
    EdgesLead (elementsOf (.node item children .nil)) := by
  have hhead : EdgesLead [XGraphElement.node (⟨1, 0, item.type⟩ : XNode τ)] := by
    intro k e he
    cases k with
    | zero => cases he
    | succ k =>
      cases k with
      | zero => cases he
      | succ k => cases he
  exact drawn_leads children hhead
    ⟨rfl, rfl, rfl, fun k n hk hn => absurd hk (Nat.not_lt.mpr (elementAt_le hn))⟩

theorem Lists.leads {item : Item τ} {children : Forest (Item τ)}
    (h : Lists graph (elementsOf (.node item children .nil))) {id : ℕ} {e : XEdge}
    (he : graph.get id = some (.edge e)) : LeadsIn graph.get id e := by
  rw [h.get_eq] at he ⊢
  exact elementsOf_leads item children id e he

/-- Every edge leads into a node from the one it stands in, and is counted right behind it. -/
theorem buildPipes_edges (h : buildPipes typeSearch pipe = .ok graph) (id : ℕ) (e : XEdge)
    (he : graph.get id = some (.edge e)) : LeadsIn graph.get id e := by
  have halike := buildPipes_alike typeSearch pipe
  rw [h] at halike
  generalize outlinePipe typeSearch pipe = said at halike
  cases halike with
  | ok hlists =>
    obtain ⟨hlists, item, children, -, rfl⟩ := hlists
    exact hlists.leads he

/-- A head and a node in it that is come to directly. -/
def twoNodes : XElements :=
  .node ⟨ascii "Head", [(ascii "Type", ascii "A")]⟩
    (.node ⟨ascii "Node", [(ascii "Type", ascii "B"), (ascii "AdvanceMode", ascii "Direct")]⟩
      .nil .nil) .nil

theorem buildPipes_edges_twoNodes : ∃ graph, buildPipes some twoNodes = .ok graph ∧
    ∀ id e, graph.get id = some (.edge e) → LeadsIn graph.get id e := by
  obtain ⟨graph, hgraph, -⟩ := ok_of_toOption_map (x := buildPipes some twoNodes)
    (f := fun graph => graph.counter) (c := 3) (by decide)
  exact ⟨graph, hgraph, buildPipes_edges hgraph⟩

/-- Every `Node` has an `AdvanceMode`. -/
def Entered : XElements → Prop
  | .nil => True
  | .node element children next =>
    (element.name = ascii "Node" → (element.attribute "AdvanceMode").isSome) ∧
      Entered children ∧ Entered next

theorem itemOf_mode {element : XElement} {item : Item τ}
    (h : itemOf typeSearch element = .ok item)
    (hmode : (element.attribute "AdvanceMode").isSome) : item.mode.isSome := by
  obtain ⟨headType, -, h⟩ := do_ok_iff.mp h
  obtain ⟨type, -, h⟩ := do_ok_iff.mp h
  obtain ⟨mode, hm, h⟩ := do_ok_iff.mp h
  cases h
  obtain ⟨value, hvalue⟩ := Option.isSome_iff_exists.mp hmode
  rw [modeOf, hvalue] at hm
  obtain ⟨number, -, rfl⟩ := map_ok_iff.mp hm
  rfl

theorem outline_entered {f : XElements} {forest : Forest (Item τ)} (h : Entered f)
    (hf : outline typeSearch f = .ok forest) (level : ℕ) :
    ∀ x ∈ forest.preorder level, x.2.mode.isSome := by
  induction f generalizing forest level with
  | nil =>
    cases hf
    simp
  | node element children next below behind =>
    obtain ⟨hmode, hchildren, hnext⟩ := h
    rw [outline] at hf
    split_ifs at hf with hnode hwithin
    · obtain ⟨item, hitem, hf⟩ := do_ok_iff.mp hf
      obtain ⟨under, hunder, hf⟩ := do_ok_iff.mp hf
      obtain ⟨rest, hrest, hf⟩ := do_ok_iff.mp hf
      cases hf
      intro x hx
      rw [Forest.preorder_node, List.mem_cons, List.mem_append] at hx
      rcases hx with rfl | hx | hx
      · exact itemOf_mode hitem (hmode hnode)
      · exact below hchildren hunder _ x hx
      · exact behind hnext hrest _ x hx
    · obtain ⟨under, hunder, hf⟩ := do_ok_iff.mp hf
      obtain ⟨rest, hrest, hf⟩ := do_ok_iff.mp hf
      cases hf
      intro x hx
      rw [Forest.preorder_append, List.mem_append] at hx
      rcases hx with hx | hx
      · exact below hchildren hunder _ x hx
      · exact behind hnext hrest _ x hx

/-- A node that is listed with a mode has its edge right behind it. -/
theorem edge_behind {l : List (XGraphElement τ)} (h : ∀ x ∈ items l, x.2.mode.isSome) {i : ℕ}
    {n : XNode τ} (hn : l[i]? = some (.node n)) : ∃ e, l[i + 1]? = some (.edge e) := by
  induction l generalizing i with
  | nil => cases hn
  | cons el l ih =>
    cases i with
    | zero =>
      cases hn
      have hmode : (modeAtFront l).isSome := h _ List.mem_cons_self
      cases l with
      | nil => cases hmode
      | cons el l =>
        cases el with
        | node n' => cases hmode
        | edge e => exact ⟨e, rfl⟩
    | succ i =>
      refine ih (fun x hx => ?_) hn
      cases el with
      | node n' => exact h x (List.mem_cons_of_mem _ hx)
      | edge e => exact h x hx

/-- A step along an edge. -/
def XGraph.Leads (graph : XGraph τ) (a b : ℕ) : Prop :=
  ∃ id e, graph.get id = some (.edge e) ∧ e.fromNode = some a ∧ e.toNode = some b

/-- If all nodes have an `AdvanceMode` then all of them are come to from the head. -/
theorem buildPipes_reaches {head : XElement × XElements}
    (h : buildPipes typeSearch pipe = .ok graph) (hhead : element pipe "Head" = .ok head)
    (hentered : Entered head.2) (id : ℕ) (n : XNode τ) (hn : graph.get id = some (.node n)) :
    Relation.ReflTransGen graph.Leads 1 id := by
  have halike := buildPipes_alike typeSearch pipe
  rw [h] at halike
  generalize hsaid : outlinePipe typeSearch pipe = said at halike
  cases halike with
  | ok hlists =>
    obtain ⟨hlists, item, children, -, rfl⟩ := hlists
    rw [outlinePipe, do_of_ok hhead] at hsaid
    obtain ⟨headType, -, hsaid⟩ := do_ok_iff.mp hsaid
    obtain ⟨below, hbelow, hsaid⟩ := do_ok_iff.mp hsaid
    cases hsaid
    have hmodes : ∀ x ∈ items (drawn 1 0 1 children), x.2.mode.isSome := by
      have hend : modeAtFront ([] : List (XGraphElement τ)) = none := rfl
      have hitems := items_drawn 1 0 1 children hend
      rw [List.append_nil] at hitems
      rw [hitems, items, List.append_nil]
      exact outline_entered hentered hbelow 1
    induction id using Nat.strong_induction_on generalizing n with
    | _ id ih =>
      have hplace := hn
      rw [hlists.get_eq] at hplace
      cases id with
      | zero => cases hplace
      | succ i =>
        cases i with
        | zero => exact .refl
        | succ i =>
          obtain ⟨e, he⟩ := edge_behind hmodes (i := i) hplace
          have hedge : graph.get (i + 3) = some (.edge e) := by
            rw [hlists.get_eq]
            exact he
          obtain ⟨-, a, b, m, n', hb, hfrom, hto, hin⟩ := hlists.leads hedge
          obtain rfl : b = i + 2 := by omega
          have hreach := ih a hin.before m hin.outer
          exact hreach.tail ⟨i + 3, e, hedge, hfrom, hto⟩

theorem buildPipes_reaches_twoNodes : ∃ graph, buildPipes some twoNodes = .ok graph ∧
    ∀ id n, graph.get id = some (.node n) → Relation.ReflTransGen graph.Leads 1 id := by
  obtain ⟨graph, hgraph, -⟩ := ok_of_toOption_map (x := buildPipes some twoNodes)
    (f := fun graph => graph.counter) (c := 3) (by decide)
  exact ⟨graph, hgraph, buildPipes_reaches hgraph rfl ⟨fun _ => rfl, trivial, trivial⟩⟩

end Pipe

end DecodingProxy.XmlGraph
