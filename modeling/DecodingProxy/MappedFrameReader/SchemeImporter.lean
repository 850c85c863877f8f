import DecodingProxy.Runtime.Faults
import Mathlib.Tactic.Common

/-!
# Schemes and the chain of nodes `SchemeImporter` builds for them

A scheme is taken here as the regular expressions and splits of the importer leave it: the
entries with their fields, nested items and switches. The importer puts the nodes of every
field behind one another. `Tail` leads through a chain, and from a switch into one of its
cases; `Head` leads back.
-/

namespace DecodingProxy.MappedFrameReader
open DecodingProxy.Runtime

/-- A function of `TableOfFuncs`: how many bytes to take, from the bytes left and the elements
of vectors recorded so far. -/
abbrev Func := List UInt8 → List (String × List UInt8) → Except Fault ℤ

/-- What the importer is run with: the build, `string.ToLower` and the functions by name. -/
structure Environment where
  debug : Bool
  toLower : String → String
  funcs : String → Option Func

/-! ### Schemes -/

/-- How a field is read, as its length and its attributes say. -/
inductive Reading
  | fixed (length : ℤ)
  | closedBy (bytes : List UInt8)
  | func (id : String)
  | unspecified
  deriving DecidableEq, Repr

/-- `typeName path (length) [attribute]*`; `links` are the variables that the length and the
attributes refer to. -/
structure FieldTyped where
  typeName : String
  path : String
  links : List String := []
  reading : Reading
  deriving DecidableEq, Repr

inductive Repeating
  | separated (separator enclose : List UInt8)
  | func (id : String)
  | node
  deriving DecidableEq, Repr

structure FieldVector where
  typeName : String
  path : String
  /-- The path is marked with `$`. -/
  isSource : Bool := false
  links : List String := []
  repeating : Repeating
  deriving DecidableEq, Repr

mutual

/-- The fields of a body, one after the other. -/
inductive Fields
  | done
  | typed (field : FieldTyped) (rest : Fields)
  | vector (field : FieldVector) (rest : Fields)
  | item (path : String) (links : List String) (body rest : Fields)
  | switch (path : String) (cases : FieldCases) (rest : Fields)

/-- The cases of a switch; the default case has no value. -/
inductive FieldCases
  | done
  | case (value : Option UInt8) (body : Fields) (rest : FieldCases)

end

/-- The instructions in the body of a `Scheme` leave nothing behind. -/
inductive Entry
  | scheme (name : String)
  | frame (path : String) (links : List String) (body : Fields)

/-! ### Nodes -/

inductive RepeatMode
  /-- Without a separator the node throws when it is executed. -/
  | whileCondition (separatorAndEnclose : Option (List UInt8 × List UInt8))
  | func (func : Func)

inductive ResultMode
  | none
  | singleTarget
  /-- Between the first and the last node of the same path. -/
  | fromTo
  | repeated
  | func (func : Func)

inductive Node
  | nodeBegin
  | nodeEnd
  | schemeBegin (name : String)
  | schemeEnd (name : String)
  | frameBegin (path : String)
  | frameEnd (path : String)
  | itemBegin (path : String)
  | itemEnd (path : String)
  | field (path : String)
  | readFromSource (path : String) (lengthToRead : ℤ)
  | readWithCondition (path : String) (bytes : List UInt8)
  /-- The target is the node before it. -/
  | readFromLinked (valuePromise : String)
  | repeat (path : String) (mode : RepeatMode)
  | result (path : String) (mode : ResultMode)
  | switchEnd (path : String)
  | switchItem
  | switchItemEnd

mutual

/-- A node with what its `Tail` leads to. -/
inductive Chain
  | null
  | node (node : Node) (tail : Chain)
  /-- A `NodeSwitch`; `tail` starts with its `NodeSwitchEnd`, where every case ends. -/
  | switch (valuePromise : String) (cases : Cases) (tail : Chain)

inductive Cases
  | nil
  | case (data : Option UInt8) (node : Chain) (rest : Cases)

end

namespace Chain

/-- `SetThisAfter` for one node after the other. -/
def ofNodes : List Node → Chain → Chain
  | [], tail => tail
  | n :: ns, tail => .node n (ofNodes ns tail)

def append : Chain → Chain → Chain
  | .null, other => other
  | .node n tail, other => .node n (tail.append other)
  | .switch path cases tail, other => .switch path cases (tail.append other)

end Chain

/-! ### The importer -/

inductive ValueParser
  | byte
  | slice
  | string
  deriving DecidableEq, Repr

structure DefinedType where
  name : String
  valueParser : Option ValueParser := none
  deriving DecidableEq, Repr

structure SchemeImporter where
  tableOfTypes : List DefinedType
  tableOfVariables : List (String × DefinedType)
  deriving DecidableEq, Repr

namespace SchemeImporter

def new : SchemeImporter where
  tableOfTypes := [{ name := "byte", valueParser := some .byte }, { name := "uint16" },
    { name := "ushort" }, { name := "uint32" }, { name := "uint" },
    { name := "string", valueParser := some .string },
    { name := "slice", valueParser := some .slice }]
  tableOfVariables := []

/-- `TableOfTypes.CreateNew`. -/
def createNew (name : String) (s : SchemeImporter) :
    Except Fault (DefinedType × SchemeImporter) :=
  if s.tableOfTypes.any (·.name = name) then .error (.raised .argument)
  else .ok ({ name }, { s with tableOfTypes := s.tableOfTypes ++ [{ name }] })

/-- `TableOfTypes.Get`. -/
def getType (env : Environment) (typeName : String) (s : SchemeImporter) :
    Except Fault DefinedType :=
  match s.tableOfTypes.find? (·.name = env.toLower typeName) with
  | some type => .ok type
  | none => .error (.raised .keyNotFound)

def createVariable (path : String) (type : DefinedType) (s : SchemeImporter) :
    Except Fault SchemeImporter :=
  if s.tableOfVariables.any (·.1 = path) then .error (.raised .argument)
  else .ok { s with tableOfVariables := s.tableOfVariables ++ [(path, type)] }

/-- The type of the variable that `TableOfPromises` finds. -/
def getValuePromise (path : String) (s : SchemeImporter) : Except Fault DefinedType :=
  match s.tableOfVariables.find? (·.1 = path) with
  | some (_, type) => .ok type
  | none => .error (.raised .keyNotFound)

/-- The nodes for the linked values of a length and of attributes. -/
def parseLinks (s : SchemeImporter) : List String → Except Fault (List Node)
  | [] => .ok []
  | path :: links => do
    let _ ← s.getValuePromise path
    let nodes ← s.parseLinks links
    .ok (.readFromLinked path :: nodes)

def getFunc (env : Environment) (id : String) : Except Fault Func :=
  match env.funcs id with
  | some func => .ok func
  | none => .error (.raised .keyNotFound)

/-- The node that reads a field, and how its result is taken. -/
def parseReading (env : Environment) (path : String) :
    Reading → Except Fault (List Node × ResultMode)
  | .fixed length => .ok ([.readFromSource path length], .singleTarget)
  | .closedBy bytes => .ok ([.readWithCondition path bytes], .singleTarget)
  | .func id => (getFunc env id).map fun func => ([], .func func)
  | .unspecified =>
    if env.debug then .error (.raised .notImplemented) else .ok ([], .none)

def parseFieldTyped (env : Environment) (field : FieldTyped) (s : SchemeImporter) :
    Except Fault (List Node × SchemeImporter) := do
  let type ← s.getType env field.typeName
  let s ← s.createVariable field.path type
  let links ← s.parseLinks field.links
  let reading ← parseReading env field.path field.reading
  .ok (.field field.path :: links ++ reading.1 ++ [.result field.path reading.2], s)

def parseRepeating (env : Environment) : Repeating → Except Fault RepeatMode
  | .separated separator enclose => .ok (.whileCondition (some (separator, enclose)))
  | .func id => (getFunc env id).map .func
  | .node => .ok (.whileCondition none)

/-- A path with `$` has its variable made here and once more with all others. -/
def createSource (field : FieldVector) (type : DefinedType) (s : SchemeImporter) :
    Except Fault SchemeImporter :=
  if field.isSource then s.createVariable field.path type else .ok s

/-- The attributes come after the result has its place in the chain. -/
def parseVector (env : Environment) (field : FieldVector) (s : SchemeImporter) :
    Except Fault (List Node × SchemeImporter) := do
  let type ← s.getType env field.typeName
  let s ← s.createSource field type
  let links ← s.parseLinks field.links
  let s ← s.createVariable field.path type
  let mode ← parseRepeating env field.repeating
  .ok ([.repeat field.path mode, .result field.path .repeated] ++ links, s)

/-- `type.From(caseValue)` of a value that is not the default. -/
def parseCaseValue (type : DefinedType) : Except Fault Unit :=
  match type.valueParser with
  | some .byte => .ok ()
  | some _ => .error (.raised .notImplemented)
  | none => .error (.raised .nullReference)

/-- `AddCaseDefault` and `AddCaseValue`: whether there is a default case now. -/
def addCase (type : DefinedType) (hasDefault : Bool) : Option UInt8 → Except Fault Bool
  | none =>
    if hasDefault then .error (.thrown .argument "Default case is already added") else .ok true
  | some _ => (parseCaseValue type).map fun _ => hasDefault

mutual

def parseFields (env : Environment) :
    Fields → SchemeImporter → Except Fault (Chain × SchemeImporter)
  | .done, s => .ok (.null, s)
  | .typed field rest, s => do
    let r ← s.parseFieldTyped env field
    let tail ← parseFields env rest r.2
    .ok (.ofNodes r.1 tail.1, tail.2)
  | .vector field rest, s => do
    let r ← s.parseVector env field
    let tail ← parseFields env rest r.2
    .ok (.ofNodes r.1 tail.1, tail.2)
  | .item path links body rest, s => do
    let links ← s.parseLinks links
    let type ← s.createNew path
    let s ← type.2.createVariable path type.1
    let chain ← parseFields env body s
    let tail ← parseFields env rest chain.2
    .ok (.ofNodes (links ++ [.itemBegin path])
      (chain.1.append (.ofNodes [.itemEnd path, .result path .fromTo] tail.1)), tail.2)
  | .switch path cases rest, s => do
    let type ← s.getValuePromise path
    let cases ← parseCases env type false cases s
    let tail ← parseFields env rest cases.2
    .ok (.switch path cases.1 (.node (.switchEnd path) tail.1), tail.2)

def parseCases (env : Environment) (type : DefinedType) (hasDefault : Bool) :
    FieldCases → SchemeImporter → Except Fault (Cases × SchemeImporter)
  | .done, s => .ok (.nil, s)
  | .case value body rest, s => do
    let hasDefault ← addCase type hasDefault value
    let chain ← parseFields env body s
    let rest ← parseCases env type hasDefault rest chain.2
    .ok (.case value (.node .switchItem (chain.1.append (.node .switchItemEnd .null))) rest.1,
      rest.2)

end

/-- A top-level frame: its own links are behind its first node. -/
def parseFrame (env : Environment) (path : String) (links : List String) (body : Fields)
    (s : SchemeImporter) : Except Fault (Chain × SchemeImporter) := do
  let links ← s.parseLinks links
  let type ← s.createNew path
  let s ← type.2.createVariable path type.1
  let chain ← parseFields env body s
  .ok (.ofNodes (.frameBegin path :: links)
    (chain.1.append (.ofNodes [.frameEnd path, .result path .fromTo] .null)), chain.2)

def parseEntries (env : Environment) :
    List Entry → SchemeImporter → Except Fault (Chain × SchemeImporter)
  | [], s => .ok (.node .nodeEnd .null, s)
  | .scheme name :: entries, s => do
    let tail ← parseEntries env entries s
    .ok (.ofNodes [.schemeBegin name, .schemeEnd name] tail.1, tail.2)
  | .frame path links body :: entries, s => do
    let frame ← s.parseFrame env path links body
    let tail ← parseEntries env entries frame.2
    .ok (frame.1.append tail.1, tail.2)

/-- `FromFileAsync` on the entries of the file. -/
def fromEntries (env : Environment) (entries : List Entry) : Except Fault Chain :=
  (parseEntries env entries new).map fun r => .node .nodeBegin r.1

end SchemeImporter

end DecodingProxy.MappedFrameReader
