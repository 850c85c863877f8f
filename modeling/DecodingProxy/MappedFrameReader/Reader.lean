import DecodingProxy.MappedFrameReader.SchemeImporter
import DecodingProxy.Runtime.Memory

/-!
# `Reader`

The reader executes one node after the other and keeps them in a queue with the values that
later nodes look at. A result `FromTo` walks back to its first node and adds up the lengths of
all results it meets on the way to its last one.
-/

namespace DecodingProxy.MappedFrameReader
open DecodingProxy.Runtime

structure NodeResult where
  path : String
  isFromTo : Bool
  length : ℤ
  resultDeepCopy : List UInt8
  deriving DecidableEq, Repr

def NodeResult.setResult (value : List UInt8) (r : NodeResult) : NodeResult :=
  { r with length := value.length, resultDeepCopy := value }

/-- An executed node, with the fields of it that are read afterwards. -/
inductive Executed
  | begins (path : String) (offset : ℤ)
  | ends (path : String) (offset : ℤ)
  | read (value : List UInt8) (lengthConsumed : ℤ)
  | repeat (path : String) (value : List UInt8) (lengthConsumed : ℤ)
      (results : List (List UInt8))
  | linked (value : List UInt8)
  | result (result : NodeResult)
  | other
  deriving DecidableEq, Repr

namespace Executed

def setResult (value : List UInt8) : Executed → Executed
  | .result r => .result (r.setResult value)
  | .read _ lengthConsumed => .read value lengthConsumed
  | .repeat path _ lengthConsumed results => .repeat path value lengthConsumed results
  | node => node

/-- The offset of the node if it is the first one of `path`. -/
def beginOffset (path : String) : Executed → Option ℤ
  | .begins p offset => if p = path then some offset else none
  | _ => none

def isEnd (path : String) : Executed → Bool
  | .ends p _ => p = path
  | _ => false

def result? : Executed → Option NodeResult
  | .result r => some r
  | _ => none

end Executed

/-- The nodes executed so far, the last one first. -/
structure Reader where
  position : ℤ
  slice : List UInt8
  nodesQueue : List Executed
  deriving DecidableEq, Repr

def Reader.push (node : Executed) (s : Reader) : Reader :=
  { s with nodesQueue := node :: s.nodesQueue }

/-- `Advance` and the cut of the rest. -/
def Reader.advance (consumed : ℤ) (node : Executed) (s : Reader) : Except Fault Reader := do
  let slice ← sliceFrom s.slice consumed
  .ok { position := s.position + consumed, slice, nodesQueue := node :: s.nodesQueue }

/-! ### Tables of results -/

/-- The results of all executed nodes are in the table of the reader. -/
def tableOfResults (nodes : List Executed) : List NodeResult := nodes.filterMap (·.result?)

def getResult (path : String) (nodes : List Executed) : Except Fault NodeResult :=
  match (tableOfResults nodes).find? (·.path = path) with
  | some r => .ok r
  | none => .error (.raised .keyNotFound)

/-- The elements of vectors are in the table of the importer. -/
def dynamicResults (nodes : List Executed) : List (String × List UInt8) :=
  nodes.reverse.flatMap fun
    | .repeat path _ _ results => results.zipIdx.map fun r => (s!"{path}[{r.2}]", r.1)
    | _ => []

/-! ### Reading nodes -/

def taskIsFaulted : Fault := .thrown .notImplemented "Task Is Faulted"

/-- The first index at which `bytes` start. -/
def startOf (bytes mem : List UInt8) : Option ℕ :=
  (List.range mem.length).find? fun i => bytes.isPrefixOf (mem.drop i)

/-- The loop of `NodeRepeat` from index `i` on, where the next element starts at `offset`, and
the end of the enclosing bytes if they are found. A separator puts `i` one byte behind itself.
-/
def separate (mem separator enclose : List UInt8) :
    (left i offset : ℕ) → List (List UInt8) → List (List UInt8) × Option ℕ
  | 0, _, _, results => (results, none)
  | left + 1, i, offset, results =>
    if mem.length ≤ i then (results, none)
    else if enclose.isPrefixOf (mem.drop i) then
      let indexEnd := i + enclose.length
      (results ++ [(mem.drop offset).take (indexEnd - offset)], some indexEnd)
    else if separator.isPrefixOf (mem.drop i) then
      let indexEnd := i + separator.length
      separate mem separator enclose left (indexEnd + 1) indexEnd
        (results ++ [(mem.drop offset).take (indexEnd - offset)])
    else separate mem separator enclose left (i + 1) offset results

/-- Without the enclosing bytes nothing is consumed and the elements stay. -/
def repeatMode (path : String) (s : Reader) : RepeatMode → Except Fault Reader
  | .whileCondition none => .error (.raised .notImplemented)
  | .whileCondition (some (separator, enclose)) =>
    if s.slice.length < enclose.length then .error taskIsFaulted
    else
      match separate s.slice separator enclose s.slice.length 0 0 [] with
      | (results, some indexEnd) =>
        s.advance indexEnd (.repeat path (s.slice.take indexEnd) indexEnd results)
      | (results, none) => s.advance 0 (.repeat path [] 0 results)
  | .func func => do
    let lengthConsumed ← func s.slice (dynamicResults s.nodesQueue)
    s.advance lengthConsumed (.repeat path [] lengthConsumed [])

/-- A `DEBUG` build looks at the next 500 bytes first. -/
def executeRepeat (debug : Bool) (path : String) (s : Reader) (mode : RepeatMode) :
    Except Fault Reader :=
  if debug ∧ s.slice.length < 500 then .error (.raised .argumentOutOfRange)
  else repeatMode path s mode

/-! ### Results -/

/-- From the last node along `Head` to the first one of `path`: its offset and the nodes after
it in the order of `Tail`. `Head` leads from the end of a switch to the switch itself; the
nodes of the case between them have other paths. -/
def walkBack (path : String) : List Executed → Except Fault (ℤ × List Executed)
  | [] => .error (.raised .nullReference)
  | node :: heads =>
    match node.beginOffset path with
    | some offset => .ok (offset, [])
    | none => (walkBack path heads).map fun r => (r.1, r.2 ++ [node])

def sumLength (nodes : List Executed) : ℤ :=
  (nodes.filterMap (·.result?)).foldl (fun sum r => int32 (sum + r.length)) 0

def fromTo (data : List UInt8) (path : String) (nodes : List Executed) :
    Except Fault NodeResult := do
  let walk ← walkBack path nodes
  let length := sumLength (walk.2.takeWhile fun node => !node.isEnd path)
  let slice ← sliceFrom data walk.1
  let slice ← sliceTo slice length
  .ok { path, isFromTo := true, length, resultDeepCopy := slice }

def collect (data : List UInt8) (path : String) (s : Reader) :
    ResultMode → Except Fault NodeResult
  | .none => .error (.raised .notImplemented)
  | .singleTarget =>
    match s.nodesQueue with
    | .read value _ :: _ =>
      .ok { path, isFromTo := false, length := value.length, resultDeepCopy := value }
    | _ => .error (.raised .nullReference)
  | .fromTo => fromTo data path s.nodesQueue
  | .repeated =>
    match s.nodesQueue with
    | .repeat _ value _ results :: _ =>
      .ok { path, isFromTo := false, length := (results.map (·.length)).sum,
            resultDeepCopy := value }
    | _ => .error (.raised .nullReference)
  | .func func => do
    let length ← func s.slice (dynamicResults s.nodesQueue)
    let slice ← sliceTo s.slice length
    .ok { path, isFromTo := false, length, resultDeepCopy := slice }

/-- A `DEBUG` build looks at 500 bytes here, too. -/
def executeResult (debug : Bool) (data : List UInt8) (path : String) (mode : ResultMode)
    (s : Reader) : Except Fault Reader :=
  if debug ∧ s.slice.length < 500 then .error (.raised .argumentOutOfRange)
  else do
    let r ← collect data path s mode
    if (tableOfResults s.nodesQueue).any (·.path = r.path) then .error (.raised .argument)
    else .ok (s.push (.result r))

/-! ### Chains -/

def executeNode (debug : Bool) (data : List UInt8) (s : Reader) : Node → Except Fault Reader
  | .frameBegin path | .itemBegin path => .ok (s.push (.begins path s.position))
  | .frameEnd path | .itemEnd path => .ok (s.push (.ends path s.position))
  | .readFromSource _ lengthToRead =>
    if s.slice.length < lengthToRead then .error taskIsFaulted
    else do
      let value ← sliceTo s.slice lengthToRead
      s.advance lengthToRead (.read value lengthToRead)
  | .readWithCondition _ bytes =>
    match startOf bytes s.slice with
    | none => .error taskIsFaulted
    | some i =>
      let lengthConsumed := i + bytes.length
      s.advance lengthConsumed (.read (s.slice.take lengthConsumed) lengthConsumed)
  | .readFromLinked valuePromise => do
    let r ← getResult valuePromise s.nodesQueue
    .ok { s with
      nodesQueue := .linked r.resultDeepCopy ::
        s.nodesQueue.modifyHead (·.setResult r.resultDeepCopy) }
  | .repeat path mode => executeRepeat debug path s mode
  | .result path mode => executeResult debug data path mode s
  | .nodeBegin | .nodeEnd | .schemeBegin _ | .schemeEnd _ | .field _ | .switchEnd _ | .switchItem
  | .switchItemEnd => .ok (s.push .other)

/-- What `NodeSwitch` compares the cases with; without cases there is nothing to compare. -/
def switchValue (valuePromise : String) (nodes : List Executed) :
    Cases → Except Fault (List UInt8)
  | .nil => .ok []
  | .case _ _ _ => (getResult valuePromise nodes).map (·.resultDeepCopy)

def orDefault (matching defaultCase : Option (Except Fault Reader)) : Except Fault Reader :=
  match matching, defaultCase with
  | some taken, _ => taken
  | none, some taken => taken
  | none, none => .error (.thrown .nullReference "Default Node Must be not empty")

mutual

def Chain.execute (debug : Bool) (data : List UInt8) : Chain → Reader → Except Fault Reader
  | .null, s => .ok s
  | .node n tail, s => do
    let s ← executeNode debug data s n
    tail.execute debug data s
  | .switch valuePromise cases tail, s => do
    let value ← switchValue valuePromise s.nodesQueue cases
    let s ← orDefault (cases.executeMatch debug data value (s.push .other))
      (cases.executeDefault debug data (s.push .other))
    tail.execute debug data s

/-- The first case whose value is equal; that of the default case is empty. -/
def Cases.executeMatch (debug : Bool) (data value : List UInt8) :
    Cases → Reader → Option (Except Fault Reader)
  | .nil, _ => none
  | .case caseData chain rest, s =>
    if caseData.toList = value then some (chain.execute debug data s)
    else rest.executeMatch debug data value s

def Cases.executeDefault (debug : Bool) (data : List UInt8) :
    Cases → Reader → Option (Except Fault Reader)
  | .nil, _ => none
  | .case none chain _, s => some (chain.execute debug data s)
  | .case (some _) _ rest, s => rest.executeDefault debug data s

end

/-- `ReadAllAsync` of a new reader: the executed nodes. -/
def readAllAsync (debug : Bool) (chain : Chain) (data : List UInt8) :
    Except Fault (List Executed) :=
  (chain.execute debug data { position := 0, slice := data, nodesQueue := [] }).map
    (·.nodesQueue)

end DecodingProxy.MappedFrameReader
