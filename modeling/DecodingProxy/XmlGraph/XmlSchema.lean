import DecodingProxy.Lib.Forests
import DecodingProxy.Runtime.Dictionary
import DecodingProxy.Runtime.Strings

/-!
# `XmlSchema` and `xGraph`

A pipe of a schema becomes a graph: the elements `Node` are its nodes, and a node with an
`AdvanceMode` is entered from the one around it. Nodes and edges are counted together. A reference
to a node is its identifier. What `XDocument.Parse` gives is where this starts; the type search is a
parameter, and a type that is not found is `none`.
-/

namespace DecodingProxy.XmlGraph
open DecodingProxy.Runtime

structure XElement where
  name : Str
  attributes : List (Str × Str)
  deriving DecidableEq, Repr

abbrev XElements := Forest XElement

def XElement.attribute (element : XElement) (name : String) : Option Str :=
  (element.attributes.find? (·.1 = ascii name)).map Prod.snd

/-- `Attribute(name)!.Value`. -/
def XElement.attributeValue (element : XElement) (name : String) : Except Fault Str :=
  match element.attribute name with
  | some value => .ok value
  | none => .error (.raised .nullReference)

/-- `Elements(name)`. -/
def elements (children : XElements) (name : String) : List (XElement × XElements) :=
  children.trees.filter (·.1.name = ascii name)

/-- `Element(name)`, on which a method is called. -/
def element (children : XElements) (name : String) : Except Fault (XElement × XElements) :=
  match (elements children name).head? with
  | some found => .ok found
  | none => .error (.raised .nullReference)

def EAdvanceMode.names : List String := ["None", "Direct", "Demux", "ResultIs"]

/-! ### `xGraph` -/

section Graph
variable {τ : Type}

structure XNode (τ : Type) where
  id : ℕ
  level : ℕ := 0
  type : Option τ := none
  deriving DecidableEq, Repr

structure XEdge where
  id : ℕ
  fromNode : Option ℕ := none
  toNode : Option ℕ := none
  transition : ℤ := 0
  deriving DecidableEq, Repr

inductive XGraphElement (τ : Type)
  | node (node : XNode τ)
  | edge (edge : XEdge)
  deriving DecidableEq, Repr

def XGraphElement.id : XGraphElement τ → ℕ
  | .node n => n.id
  | .edge e => e.id

structure XGraph (τ : Type) where
  elements : Dictionary ℕ (XGraphElement τ) := ∅
  counter : ℕ := 0

namespace XGraph

/-- `Add` of an element that is given its identifier there. -/
def add (graph : XGraph τ) (el : ℕ → XGraphElement τ) : Except Fault (XGraph τ × ℕ) := do
  let id := graph.counter + 1
  let elements ← graph.elements.add id (el id)
  .ok (⟨elements, id⟩, id)

def newNode (graph : XGraph τ) : Except Fault (XGraph τ × ℕ) := graph.add fun id => .node { id }

def newEdge (graph : XGraph τ) : Except Fault (XGraph τ × ℕ) := graph.add fun id => .edge { id }

/-- The fields of an element of the graph are assigned. -/
def assign (graph : XGraph τ) (el : XGraphElement τ) : XGraph τ :=
  { graph with elements := AList.insert el.id el graph.elements }

end XGraph

end Graph

/-! ### `XmlSchema` -/

structure BuildContext where
  currentLevel : ℕ := 0
  currentSiblind : ℕ := 0

section Build
variable {τ : Type} (typeSearch : Str → Option τ)

def message (s : Str) : String := String.ofList (s.map fun c => Char.ofNat c.toNat)

def searchType (headType : Str) : Except Fault τ :=
  match typeSearch headType with
  | some type => .ok type
  | none => .error (.thrown .nullReference ("Not Founded Type:" ++ message headType))

/-- The edge of a node with an `AdvanceMode`. -/
def buildEdge (graph : XGraph τ) (element : XElement) (parentNode node : ℕ) :
    Except Fault (XGraph τ) :=
  match element.attribute "AdvanceMode" with
  | none => .ok graph
  | some advanceModeValue => do
    let mode ← Str.parseEnum EAdvanceMode.names advanceModeValue
    let (graph, edge) ← graph.newEdge
    .ok (graph.assign (.edge ⟨edge, some parentNode, some node, mode⟩))

/-- The case of a `Node`, up to the call for its children. -/
def buildNode (context : BuildContext) (graph : XGraph τ) (element : XElement) (parentNode : ℕ) :
    Except Fault (BuildContext × XGraph τ × ℕ) := do
  let context := ⟨context.currentLevel + 1, context.currentSiblind + 1⟩
  let (graph, node) ← graph.newNode
  let headType ← element.attributeValue "Type"
  let type ← searchType typeSearch headType
  let graph := graph.assign (.node ⟨node, context.currentLevel, some type⟩)
  let graph ← buildEdge graph element parentNode node
  .ok (context, graph, node)

/-- A call of `BuildNextNodeRecursive` around its loop. -/
def aroundLoop (context : BuildContext)
    (loop : BuildContext → Except Fault (BuildContext × XGraph τ)) :
    Except Fault (BuildContext × XGraph τ) := do
  let (inner, graph) ← loop { context with currentSiblind := 0 }
  .ok ({ inner with currentSiblind := context.currentSiblind }, graph)

/-- The loop of `BuildNextNodeRecursive`, which calls itself for the elements within. -/
def buildElements :
    XElements → BuildContext → XGraph τ → ℕ → Except Fault (BuildContext × XGraph τ)
  | .nil, context, graph, _ => .ok (context, graph)
  | .node element children next, context, graph, parentNode =>
    if element.name = ascii "Node" then do
      let (context, graph, node) ← buildNode typeSearch context graph element parentNode
      let (context, graph) ← aroundLoop context fun context =>
        buildElements children context graph node
      let context := { context with currentLevel := context.currentLevel - 1 }
      buildElements next context graph parentNode
    else if [ascii "Demux", ascii "Switch", ascii "Case"].contains element.name then do
      let (context, graph) ← aroundLoop context fun context =>
        buildElements children context graph parentNode
      buildElements next context graph parentNode
    else .error (.thrown .notImplemented (message element.name))

def buildNextNodeRecursive (context : BuildContext) (graph : XGraph τ) (children : XElements)
    (parentNode : ℕ) : Except Fault (BuildContext × XGraph τ) :=
  aroundLoop context fun context => buildElements typeSearch children context graph parentNode

def buildPipes (pipe : XElements) : Except Fault (XGraph τ) := do
  let (head, children) ← element pipe "Head"
  let headType ← head.attributeValue "Type"
  let (graph, idHead) ← XGraph.add {} fun id => .node { id, type := typeSearch headType }
  let (_, graph) ← buildNextNodeRecursive typeSearch {} graph children idHead
  .ok graph

/-- `ParseFromString`, from the root of the document on. -/
def parseDocument (root : XElement) (children : XElements) : Except Fault (List (XGraph τ)) := do
  let (_, children) ← element (.node root children .nil) "NodeProxy"
  let (_, children) ← element children "Schema"
  (elements children "Pipe").mapM fun (_, pipe) => buildPipes typeSearch pipe

end Build

/-! ### What a pipe says -/

section Outline
variable {τ : Type} (typeSearch : Str → Option τ)

/-- A node of a pipe: what it does, and in which mode it is come to. -/
structure Item (τ : Type) where
  type : Option τ
  mode : Option ℤ
  deriving DecidableEq, Repr

def modeOf (element : XElement) : Except Fault (Option ℤ) :=
  match element.attribute "AdvanceMode" with
  | none => .ok none
  | some value => (Str.parseEnum EAdvanceMode.names value).map some

def itemOf (element : XElement) : Except Fault (Item τ) := do
  let headType ← element.attributeValue "Type"
  let type ← searchType typeSearch headType
  let mode ← modeOf element
  .ok ⟨some type, mode⟩

/-- The nodes as they stand in one another; what is between them is left out. -/
def outline : XElements → Except Fault (Forest (Item τ))
  | .nil => .ok .nil
  | .node element children next =>
    if element.name = ascii "Node" then do
      let item ← itemOf typeSearch element
      let below ← outline children
      let behind ← outline next
      .ok (.node item below behind)
    else if [ascii "Demux", ascii "Switch", ascii "Case"].contains element.name then do
      let within ← outline children
      let behind ← outline next
      .ok (within.append behind)
    else .error (.thrown .notImplemented (message element.name))

/-- The head is a node whose mode is not looked at. -/
def outlinePipe (pipe : XElements) : Except Fault (Forest (Item τ)) := do
  let (head, children) ← element pipe "Head"
  let headType ← head.attributeValue "Type"
  let below ← outline typeSearch children
  .ok (.node ⟨typeSearch headType, none⟩ below .nil)

def outlineDocument (root : XElement) (children : XElements) :
    Except Fault (List (Forest (Item τ))) := do
  let (_, children) ← element (.node root children .nil) "NodeProxy"
  let (_, children) ← element children "Schema"
  (elements children "Pipe").mapM fun (_, pipe) => outlinePipe typeSearch pipe

end Outline

end DecodingProxy.XmlGraph
