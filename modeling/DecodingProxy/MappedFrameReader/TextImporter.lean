import DecodingProxy.MappedFrameReader.SchemeText

/-!
# `SchemeImporter` on the text of a scheme

`ParseFields` and `FromFileAsync` are loops, and bodies are parsed by another call of
`ParseFields`. Both loops take what one round may go on with: with none left they have not
ended.
-/

namespace DecodingProxy.MappedFrameReader.TextImporter
open DecodingProxy.Runtime SchemeText

/-! ### Types -/

/-- `TableOfTypes.StartWithTypeName`: a text without white space has no index to end the keyword
at. -/
def startWithTypeName (capture : Str) (s : SchemeImporter) : Except Fault (Option DefinedType) :=
  let str := Str.trimStart capture
  match str.findIdx? Str.isWhiteSpace with
  | none => .error (.raised .argumentOutOfRange)
  | some index => .ok (s.tableOfTypes.find? (·.name = nameOf (str.take index)))

/-- `IndexOf(',')`, and `Substring(0, index)`, which throws where there is no comma. -/
def beforeComma (input : Str) : Except Fault (ℕ × Str) :=
  match Str.indexOf 0x2C input with
  | none => .error (.raised .argumentOutOfRange)
  | some index => .ok (index, input.take index)

def splitByWhiteSpace : Str → List Str := Str.splitRemoveEmpty Str.isWhiteSpace

/-- Without the parentheses around a length. -/
def trimParentheses (s : Str) : Str :=
  Str.trimEndOf (· = 0x29) (Str.trimStartOf (· = 0x28) s)

def getFunc (env : TextEnvironment) (valueString : Option Str) : Except Fault Func := do
  let id ← orArgumentNull valueString
  SchemeImporter.getFunc env.toEnvironment (nameOf id)

/-- The node of a linked value whose promise is found. -/
def readLinked (path : Str) (s : SchemeImporter) : Except Fault (List Node) :=
  (s.getValuePromise (nameOf path)).map fun _ => [.readFromLinked (nameOf path)]

/-! ### Fields of one type -/

/-- A comparison with a string ends the field at it; other conditions leave nothing behind. -/
def stringCompare (env : TextEnvironment) (path : String) (condType condValue : Attribute) :
    Except Fault (List Node × ResultMode) :=
  if condValue.valueType ≠ some .string then .error (.raised .notImplemented)
  else do
    let condition := Str.trim (← orNull condType.valueString)
    if env.equalsIgnoreCase condition (ascii "ClosedBy") then
      let value ← Str.inner (← orNull condValue.valueString)
      let bytes := Utf8.getBytes (← Str.unescape env.isWordChar value)
      .ok ([.readWithCondition path bytes], .singleTarget)
    else if env.equalsIgnoreCase condition (ascii "ClosedAt") then
      .error (.raised .notImplemented)
    else if env.equalsIgnoreCase condition (ascii "Func") then
      (getFunc env condValue.valueString).map fun _ => ([], .none)
    else .ok ([], .none)

def conditionReading (env : TextEnvironment) (path : String) (attributes : List Attribute) :
    Except Fault (List Node × ResultMode) :=
  match find .conditionType attributes with
  | none => .ok ([], .none)
  | some condType =>
    match find .conditionValue attributes with
    | none => .error (.raised .notImplemented)
    | some condValue =>
      match find .advanceMode attributes with
      | none => .ok ([], .none)
      | some algo =>
        if algo.valueString = some (ascii "StringCompare") then
          stringCompare env path condType condValue
        else if algo.valueString = some (ascii "Func") then
          (getFunc env condValue.valueString).map fun func => ([], .func func)
        else .ok ([], .none)

/-- With attributes a fixed length needs `Cast`. -/
def checkCast (attributes : List Attribute) : Except Fault Unit :=
  match find .cast attributes with
  | none => .error (.raised .notImplemented)
  | some cast => do
    let _ ← Str.parseBool (← orArgumentNull cast.valueString)
    .ok ()

/-- What the attributes make of a length: a condition, a linked one, a fixed one. -/
def attributesReading (env : TextEnvironment) (path : String) (length : ℤ)
    (isLinked isCondition : Bool) (attributes : List Attribute) :
    Except Fault (List Node × ResultMode) :=
  if isCondition then conditionReading env path attributes
  else if isLinked then .ok ([], .none)
  else (checkCast attributes).map fun _ => ([.readFromSource path length], .singleTarget)

/-- The nodes behind that of the field, and how its result is taken. -/
def fieldReading (env : TextEnvironment) (path : String) (length : ℤ) (isLinked isCondition : Bool)
    (inputs : List Str) (s : SchemeImporter) : Except Fault (List Node × ResultMode) :=
  if inputs = [] then .ok ([.readFromSource path length], .singleTarget)
  else do
    let attributes ← parseAttributes s inputs
    let reading ← attributesReading env path length isLinked isCondition attributes.1
    .ok (attributes.2 ++ reading.1, reading.2)

/-- The node for a length `($path)`. -/
def linkedLength (lengthControl : Str) (s : SchemeImporter) : Except Fault (List Node) :=
  if dollar ∈ lengthControl then do
    let lengthLink ← Str.inner lengthControl
    readLinked (Str.trimOf (· = dollar) lengthLink) s
  else .ok []

/-- The length, 0 where it is linked or a condition. -/
def fixedLength (lengthControl : Str) : Except Fault ℤ :=
  if dollar ∈ lengthControl ∨ 0x3F ∈ lengthControl then .ok 0
  else Str.parseInt (Str.trim (trimParentheses lengthControl))

/-- `ParseFieldTyped`: how much of the input the field takes, its nodes and the tables. -/
def parseFieldTyped (env : TextEnvironment) (input : Str) (type : DefinedType)
    (s : SchemeImporter) : Except Fault (ℕ × List Node × SchemeImporter) := do
  let (indexDelimeter, capture) ← beforeComma input
  let splits := splitByWhiteSpace capture
  let fieldControl ← Str.item splits 1
  let lengthControl ← Str.item splits 2
  let isLinkedLength := decide (dollar ∈ lengthControl)
  let isConditionLength := decide (0x3F ∈ lengthControl)
  let definedType ← s.getType env.toEnvironment type.name
  let path := nameOf <|
    if dollar ∈ fieldControl then Str.trimStart (Str.trimOf (· = dollar) fieldControl)
    else fieldControl
  let s ← s.createVariable path definedType
  let links ← linkedLength lengthControl s
  let length ← fixedLength lengthControl
  let reading ← fieldReading env path length isLinkedLength isConditionLength (splits.drop 3) s
  match env.debug, reading.2 with
  | true, .none => .error (.raised .notImplemented)
  | _, mode =>
    .ok (indexDelimeter + 1, .field path :: links ++ reading.1 ++ [.result path mode], s)

/-! ### Vectors -/

def trimQuotes : Str → Str := Str.trimOf (· = 0x22)

/-- The separator is looked at before it is known to be there. -/
def separatorMode (env : TextEnvironment) (attributes : List Attribute) :
    Except Fault RepeatMode := do
  let value ← orNull ((find .separator attributes).bind (·.valueString))
  let valueEnclose ← orNull ((find .enclose attributes).bind (·.valueString))
  let enclose ← Str.unescape env.isWordChar (trimQuotes valueEnclose)
  let separator ← Str.unescape env.isWordChar (trimQuotes value)
  .ok (.whileCondition (some (Utf8.getBytes separator, Utf8.getBytes enclose)))

def conditionMode (env : TextEnvironment) (attributes : List Attribute) :
    Except Fault RepeatMode := do
  let _ ← first .advanceMode attributes
  let condType ← first .conditionType attributes
  let condValue := find .conditionValue attributes
  let _ ← Str.parseBool (← orArgumentNull ((find .repeat attributes).bind (·.valueString)))
  if condType.valueType ≠ some .string then .error (.raised .notImplemented)
  else if condType.valueString = some (ascii "ClosedBy") then
    match condValue with
    | some condValue =>
      if condValue.valueType = some .string then .ok (.whileCondition none)
      else .error (.raised .notImplemented)
    | none => separatorMode env attributes
  else if condType.valueString = some (ascii "Func") then
    (getFunc env (condValue.bind (·.valueString))).map .func
  else .error (.raised .notImplemented)

/-- The variable of a path with `$`, which is made once more with those of all other paths. -/
def createSource (isSource : Bool) (path : String) (type : DefinedType) (s : SchemeImporter) :
    Except Fault SchemeImporter :=
  if isSource then s.createVariable path type else .ok s

def linkedCount (lengthControl : Str) (s : SchemeImporter) : Except Fault (List Node) :=
  if dollar ∈ lengthControl then
    readLinked (Str.trimOf (· = dollar) (trimParentheses lengthControl)) s
  else .ok []

/-- Lengths that are no condition are refused in the end. -/
def vectorMode (env : TextEnvironment) (lengthControl : Str) (attributes : List Attribute) :
    Except Fault RepeatMode :=
  if 0x3F ∈ lengthControl then conditionMode env attributes else .error (.raised .notImplemented)

/-- `ParseVector`. -/
def parseVector (env : TextEnvironment) (substr : Str) (s : SchemeImporter) :
    Except Fault (ℕ × List Node × SchemeImporter) := do
  let (indexDelimeter, _) ← beforeComma substr
  let capture ← Str.substringOf 0 indexDelimeter (Str.trimStart substr)
  let capture ← Str.substring (ascii "vector").length (Str.trimEnd capture)
  let splits := splitByWhiteSpace (Str.trimStart capture)
  let typeName ← Str.item splits 0
  let fieldControl ← Str.item splits 1
  let type ← s.getType env.toEnvironment (nameOf typeName)
  let isSource := decide (dollar ∈ fieldControl)
  let path := nameOf <|
    if isSource then Str.trimStart (Str.trimStartOf (· = dollar) fieldControl) else fieldControl
  let s ← createSource isSource path type s
  let lengthControl ← Str.item splits 2
  let attributes ← parseAttributes s (splits.drop 3)
  validateForRepeat attributes.1
  let links ← linkedCount lengthControl s
  let s ← s.createVariable path type
  let mode ← vectorMode env lengthControl attributes.1
  .ok (indexDelimeter + 1,
    [.repeat path mode, .result path .repeated] ++ attributes.2 ++ links, s)

/-! ### Bodies -/

/-- The nodes that a call appends, and the tables it leaves. -/
abbrev Built := Chain × SchemeImporter

/-- `ParseFields` on the text of a body, as the functions below call it. -/
abbrev ParseBody := Str → SchemeImporter → Except Halt Built

/-- What `ParseItem` does before it parses the body: the path, the nodes of linked values, and the
tables. -/
def openItem (m : Braced) (s : SchemeImporter) :
    Except Fault (String × List Node × SchemeImporter) := do
  let itemMeta ← parseItemMeta m.head s
  let path := nameOf itemMeta.1.name
  let type ← s.createNew path
  let s ← type.2.createVariable path type.1
  .ok (path, itemMeta.2, s)

/-- `ParseItem`; 0 where the expression finds nothing. -/
def parseItem (parseBody : ParseBody) (str : Str) (s : SchemeImporter) :
    Except Halt (ℕ × Built) :=
  match regexItem str with
  | none => .ok (0, .null, s)
  | some m => do
    let (path, links, s) ← (openItem m s).mapError .threw
    let body ← parseBody m.body s
    .ok (m.value.length, .ofNodes (links ++ [.itemBegin path])
      (body.1.append (.ofNodes [.itemEnd path, .result path .fromTo] .null)), body.2)

/-- The value that a case is for; the default case has none. -/
def parseCaseValue (env : TextEnvironment) (type : DefinedType) (caseMeta : Str) :
    Except Fault (Option UInt8) :=
  let trimmed := Str.trim caseMeta
  let caseValue := Str.trim (trimParentheses trimmed)
  if env.equalsIgnoreCase caseValue (ascii "default") then .ok none
  else if dollar ∈ trimmed then .error (.raised .notImplemented)
  else do
    SchemeImporter.parseCaseValue type
    let value ← Str.toByte16 caseValue
    .ok (some value)

/-- The value of a case, and whether there is a default case now. -/
def openCase (env : TextEnvironment) (type : DefinedType) (hasDefault : Bool) (caseMeta : Str) :
    Except Fault (Option UInt8 × Bool) := do
  let value ← parseCaseValue env type caseMeta
  let hasDefault ← SchemeImporter.addCase type hasDefault value
  .ok (value, hasDefault)

def parseCases (env : TextEnvironment) (parseBody : ParseBody) (type : DefinedType) :
    Bool → List SwitchCase → SchemeImporter → Except Halt (Cases × SchemeImporter)
  | _, [], s => .ok (.nil, s)
  | hasDefault, item :: items, s => do
    let (value, hasDefault) ← (openCase env type hasDefault item.caseMeta).mapError .threw
    let body ← parseBody item.caseBody s
    let rest ← parseCases env parseBody type hasDefault items body.2
    .ok (.case value (.node .switchItem (body.1.append (.node .switchItemEnd .null))) rest.1,
      rest.2)

/-- The path and the type of the variable that a switch looks at. -/
def openSwitch (m : Braced) (s : SchemeImporter) : Except Fault (String × DefinedType) :=
  let valueControl := Str.trim m.head
  if dollar ∈ valueControl then do
    let idVar ← Str.inner valueControl
    let path := nameOf (Str.trimStartOf (· = dollar) idVar)
    let type ← s.getValuePromise path
    .ok (path, type)
  else .error (.raised .notSupported)

/-- `ParseSwitch`. -/
def parseSwitch (env : TextEnvironment) (parseBody : ParseBody) (switchBody : Str)
    (s : SchemeImporter) : Except Halt (ℕ × Built) :=
  match regexSwitch switchBody with
  | none => .error (.threw (.raised .notImplemented))
  | some m => do
    let (path, type) ← (openSwitch m s).mapError .threw
    let cases ← parseCases env parseBody type false (regexSwitchCases m.body) s
    .ok (m.value.length, .switch path cases.1 (.node (.switchEnd path) .null), cases.2)

inductive FieldKind
  | typed (type : DefinedType)
  | vector
  | item
  | switch
  | unknown
  deriving DecidableEq, Repr

/-- The branch of `ParseFields`; the one for `nameof(EKeyWord.Item)` comes too late. -/
def fieldKind (env : TextEnvironment) (capture : Str) (s : SchemeImporter) :
    Except Fault FieldKind :=
  (startWithTypeName capture s).map fun type =>
    match type with
    | some type => .typed type
    | none =>
      if env.startsWith capture (ascii "vector") then .vector
      else if env.startsWith capture (ascii "Item") then .item
      else if env.startsWith capture (ascii "Switch") then .switch
      else .unknown

/-- One round of `ParseFields`: what is consumed of the capture. A vector takes one more than
`ParseVector` says, and a switch is looked for in the whole input. -/
def parseField (env : TextEnvironment) (parseBody : ParseBody) (input capture : Str)
    (s : SchemeImporter) : Except Halt (ℕ × Built) := do
  match ← (fieldKind env capture s).mapError .threw with
  | .typed type =>
    let (length, nodes, s) ← (parseFieldTyped env capture type s).mapError .threw
    .ok (length, .ofNodes nodes .null, s)
  | .vector =>
    let (length, nodes, s) ← (parseVector env capture s).mapError .threw
    .ok (length + 1, .ofNodes nodes .null, s)
  | .item => parseItem parseBody capture s
  | .switch => parseSwitch env parseBody input s
  | .unknown => .error (.threw (.raised .notImplemented))

/-- The loop of `ParseFields`, where `capture` is left of `input`. -/
def parseFields (env : TextEnvironment) : ℕ → (input capture : Str) → SchemeImporter →
    Except Halt Built
  | 0, _, _, _ => .error .diverges
  | fuel + 1, input, capture, s =>
    let capture := Str.trimStart capture
    if capture = [] then .ok (.null, s)
    else do
      let (lengthConsumed, nodes, s) ←
        parseField env (fun body s => parseFields env fuel body body s) input capture s
      let capture ← (Str.substring lengthConsumed capture).mapError .threw
      let rest ← parseFields env fuel input capture s
      .ok (nodes.append rest.1, rest.2)

/-! ### Entries -/

/-- The instructions of a scheme are taken apart and leave nothing behind. -/
def parseInstructions : List Str → Except Fault Unit
  | [] => .ok ()
  | instruction :: instructions =>
    match Str.split 0x20 instruction with
    | [] => .error (.raised .indexOutOfRange)
    | operation :: inputs =>
      if Str.trim operation = ascii "Read" then do
        parseInstructionAttributes inputs
        parseInstructions instructions
      else .error (.raised .notImplemented)

/-- `ParseScheme`: the text left, and the nodes. -/
def parseScheme (env : TextEnvironment) (substr : Str) (m : Braced) :
    Except Fault (Str × List Node) := do
  let rest ← Str.substring m.value.length substr
  let metaSplit := Str.split 0x3A (Str.trim m.head)
  let keyword ← Str.item metaSplit 0
  let name ← Str.item metaSplit 1
  let name := nameOf (Str.trim name)
  if ¬ env.equalsIgnoreCase (Str.trim keyword) (ascii "Scheme") then .error (.raised .format)
  else
    parseInstructions (Str.split 0x3B (Str.trim (lastCapture m.body))).dropLast
    .ok (Str.trim rest, [.schemeBegin name, .schemeEnd name])

/-- What `ParseFrame` does before it parses the body. The type has the name as it stands in the
text, the path is trimmed. -/
def openFrame (m : Braced) (s : SchemeImporter) :
    Except Fault (String × List Node × SchemeImporter) := do
  let frameMeta ← parseFrameMeta m.head s
  let path := nameOf (Str.trim frameMeta.1.name)
  let type ← s.createNew (nameOf frameMeta.1.name)
  let s ← type.2.createVariable path type.1
  .ok (path, frameMeta.2, s)

/-- `ParseFrame`. -/
def parseFrame (parseBody : ParseBody) (entry substr : Str) (s : SchemeImporter) :
    Except Halt (Str × Built) := do
  let rest ← (Str.substring entry.length substr).mapError .threw
  match regexFrame entry with
  | none => .error (.threw (.raised .format))
  | some m =>
    let (path, links, s) ← (openFrame m s).mapError .threw
    let body ← parseBody m.body s
    .ok (Str.trimStart rest, .ofNodes (.frameBegin path :: links)
      (body.1.append (.ofNodes [.frameEnd path, .result path .fromTo] .null)), body.2)

/-- One round of `FromFileAsync`: an entry of another kind is left where it is. -/
def parseEntry (env : TextEnvironment) (parseBody : ParseBody) (m : Braced) (substr : Str)
    (s : SchemeImporter) : Except Halt (Str × Built) :=
  if env.startsWith m.value (ascii "Scheme") then do
    let entry ← (parseScheme env substr m).mapError .threw
    .ok (entry.1, .ofNodes entry.2 .null, s)
  else if env.startsWith m.value (ascii "Frame") then parseFrame parseBody m.value substr s
  else .ok (substr, .null, s)

/-- The loop of `FromFileAsync`. -/
def fromText (env : TextEnvironment) : ℕ → Str → SchemeImporter → Except Halt Built
  | 0, _, _ => .error .diverges
  | fuel + 1, substr, s =>
    match regexEntry substr with
    | none => .ok (.node .nodeEnd .null, s)
    | some m => do
      let (substr, nodes, s) ←
        parseEntry env (fun body s => parseFields env fuel body body s) m substr s
      let rest ← fromText env fuel substr s
      .ok (nodes.append rest.1, rest.2)

/-- `FromFileAsync` of a file with this text. -/
def fromFile (env : TextEnvironment) (fuel : ℕ) (str : Str) : Except Halt Chain :=
  (fromText env fuel str .new).map fun built => .node .nodeBegin built.1

end DecodingProxy.MappedFrameReader.TextImporter
