import DecodingProxy.MappedFrameReader.SchemeImporter
import DecodingProxy.Runtime.Strings

/-!
# The text of a scheme

What the regular expressions of `SchemeImporter` find in a text, and what it makes of an
attribute `[name=value]` and of the words in front of a body.

A body is taken up to the brace that closes it. Where there is none, the expression gives back
what it has matched until a closing brace can end it: that is the last one of the text.
-/

namespace DecodingProxy.MappedFrameReader
open DecodingProxy.Runtime

/-- What the importer is run with beside the functions: `StartsWith` of the current culture,
`Compare` that ignores case, and what `\w` is. A text starts with what stands at its start, if a
plain character comes after it, and with no word that has another first letter. -/
structure TextEnvironment extends Environment where
  startsWith : Str → Str → Bool
  equalsIgnoreCase : Str → Str → Bool
  isWordChar : UInt16 → Bool
  startsWith_word : ∀ (word : Str) (c : UInt16) (rest : Str), word.all Str.isPlain →
    Str.isPlain c → startsWith (word ++ c :: rest) word = true
  not_startsWith : ∀ (c d : UInt16) (rest word : Str), Str.isAsciiLetter c → Str.isAsciiLetter d →
    Str.lower c ≠ Str.lower d → startsWith (c :: rest) (d :: word) = false

/-- A release without functions, on the platform without culture data. -/
def TextEnvironment.ordinal : TextEnvironment where
  debug := false
  toLower := String.toLower
  funcs _ := none
  startsWith s value := value.isPrefixOf s
  equalsIgnoreCase s value := s.map Str.lower = value.map Str.lower
  isWordChar c := Str.isAsciiLetter c || Str.isDigit c || c = 0x5F
  startsWith_word word _ _ _ _ := List.isPrefixOf_iff_prefix.mpr (List.prefix_append word _)
  not_startsWith c d rest word _ _ hne := by
    have hdiffer : d ≠ c := fun heq => hne (congrArg Str.lower heq.symm)
    rw [List.isPrefixOf, beq_false_of_ne hdiffer, Bool.false_and]

namespace SchemeText

/-! ### Braces -/

def braceOpen : UInt16 := 0x7B

def braceClose : UInt16 := 0x7D

def isBrace (c : UInt16) : Bool := c = braceOpen || c = braceClose

/-- The index of the brace that closes, where so many more are open. -/
def closing : ℕ → Str → Option ℕ
  | _, [] => none
  | depth, c :: s =>
    if c = braceClose then
      match depth with
      | 0 => some 0
      | depth + 1 => (closing depth s).map (· + 1)
    else if c = braceOpen then (closing (depth + 1) s).map (· + 1)
    else (closing depth s).map (· + 1)

def lastIndexOf (value : UInt16) (s : Str) : Option ℕ :=
  (s.reverse.findIdx? (· = value)).map fun i => s.length - 1 - i

/-- The length of the body behind an opening brace. -/
def bodyLength (s : Str) : Option ℕ := (closing 0 s).or (lastIndexOf braceClose s)

/-! ### Regular expressions -/

/-- A match with its groups: the text in front of the body, and the body. -/
structure Braced where
  value : Str
  head : Str
  body : Str
  deriving DecidableEq, Repr

/-- A keyword, characters of a kind, and a body, at the start of the text. -/
def bracedAt (keyword : Str) (isHead : UInt16 → Bool) (s : Str) : Option Braced :=
  if keyword.isPrefixOf s then
    let behind := s.drop keyword.length
    let head := behind.takeWhile isHead
    match behind.dropWhile isHead with
    | [] => none
    | c :: inside =>
      if c = braceOpen then
        (bodyLength inside).map fun length =>
          { value := s.take (keyword.length + head.length + length + 2), head
            body := inside.take length }
      else none
  else none

/-- `Regex.Match`: the first start at which the expression matches. -/
def firstMatch {α : Type*} (matchAt : Str → Option α) : Str → Option α
  | [] => matchAt []
  | c :: s => (matchAt (c :: s)).or (firstMatch matchAt s)

def regexEntry : Str → Option Braced := firstMatch (bracedAt [] fun c => !isBrace c)

def regexFrame : Str → Option Braced := firstMatch (bracedAt (ascii "Frame:") (· ≠ braceOpen))

def regexItem : Str → Option Braced := firstMatch (bracedAt (ascii "Item:") (· ≠ braceOpen))

def regexSwitch : Str → Option Braced := firstMatch (bracedAt (ascii "Switch") (· ≠ braceOpen))

/-- The group of the body in `regexEntry` is repeated and keeps its last run or brace only. -/
def lastCapture (body : Str) : Str :=
  match body.reverse with
  | [] => []
  | c :: s => if isBrace c then [c] else ((c :: s).takeWhile fun c => !isBrace c).reverse

structure SwitchCase where
  caseMeta : Str
  caseBody : Str
  deriving DecidableEq, Repr

/-- One case at the start of the text, and the text behind it. -/
def caseAt (s : Str) : Option (SwitchCase × Str) :=
  match s.dropWhile fun c => !isBrace c && c ≠ 0x28 with
  | 0x28 :: inside =>
    match inside.dropWhile (fun c => !isBrace c),
      lastIndexOf 0x29 (inside.takeWhile (!isBrace ·)) with
    | c :: behind, some (length + 1) =>
      if c = braceOpen then
        let body := behind.dropWhile Str.isWhiteSpace
        (bodyLength body).map fun bodyLength =>
          ({ caseMeta := inside.take (length + 1), caseBody := body.take bodyLength },
            body.drop (bodyLength + 1))
      else none
    | _, _ => none
  | _ => none

def casesFrom : ℕ → Str → List SwitchCase
  | 0, _ => []
  | left + 1, s =>
    match caseAt s with
    | some (first, rest) => first :: casesFrom left rest
    | none => []

/-- The captures of the groups of `regexSwitchCases`. -/
def regexSwitchCases (s : Str) : List SwitchCase :=
  (firstMatch (fun s => if casesFrom s.length s = [] then none else some (casesFrom s.length s))
    s).getD []

/-! ### Attributes -/

inductive EAttribute
  | none
  | size
  | lengthType
  | sourceType
  | name
  | sourceName
  | repeat
  | conditionType
  | conditionValue
  | advanceMode
  | asignedValue
  | type
  | separator
  | enclose
  | cast
  /-- `Enum.Parse` takes numbers without a name, too. -/
  | unnamed (value : ℤ)
  deriving DecidableEq, Repr

/-- The names in the order of their numbers. -/
def EAttribute.names : List String :=
  ["None", "Size", "LengthType", "SourceType", "Name", "SourceName", "Repeat", "ConditionType",
    "ConditionValue", "AdvanceMode", "AsignedValue", "Type", "Separator", "Enclose", "Cast"]

def EAttribute.ofInt : ℤ → EAttribute
  | 0 => .none
  | 1 => .size
  | 2 => .lengthType
  | 3 => .sourceType
  | 4 => .name
  | 5 => .sourceName
  | 6 => .repeat
  | 7 => .conditionType
  | 8 => .conditionValue
  | 9 => .advanceMode
  | 10 => .asignedValue
  | 11 => .type
  | 12 => .separator
  | 13 => .enclose
  | 14 => .cast
  | value => .unnamed value

def EAttribute.parse (s : Str) : Except Fault EAttribute :=
  (Str.parseEnum EAttribute.names s).map .ofInt

def ESizeType.names : List String := ["None", "Defined", "Linked", "Dynamic"]

inductive ValueType
  | bool
  | string
  | int
  deriving DecidableEq, Repr

/-- A value that refers to a variable leaves all other fields empty. -/
structure Attribute where
  type : EAttribute
  sizeType : ℤ := 0
  valueInt : ℤ := 0
  valueString : Option Str := none
  valueType : Option ValueType := none
  deriving DecidableEq, Repr

/-- The code units as characters, so that two names are equal just when the strings are: those
of surrogate pairs, which are no characters, stand in the last plane. -/
def nameOf (s : Str) : String :=
  String.ofList <| s.map fun c =>
    if 0xD800 ≤ c ∧ c ≤ 0xDFFF then Char.ofNat (0x100000 + c.toNat) else Char.ofNat c.toNat

def orNull (s : Option Str) : Except Fault Str :=
  match s with
  | some s => .ok s
  | none => .error (.raised .nullReference)

def orArgumentNull (s : Option Str) : Except Fault Str :=
  match s with
  | some s => .ok s
  | none => .error (.raised .argumentNull)

def dollar : UInt16 := 0x24

/-- `ParseAttribute`: the attribute, and the node that reads the linked value. -/
def parseAttribute (input : Str) (s : SchemeImporter) : Except Fault (Attribute × List Node) := do
  let split := Str.split 0x3D (← Str.inner (Str.trim input))
  let value ← Str.item split 1
  let name ← Str.item split 0
  let kind ← EAttribute.parse name
  if dollar ∈ value then
    let path := nameOf (Str.trimStartOf (· = dollar) value)
    let _ ← s.getValuePromise path
    .ok ({ type := kind }, [.readFromLinked path])
  else
    match kind with
    | .none => .error (.raised .notImplemented)
    | .size =>
      let valueInt ← Str.parseInt value
      .ok ({ type := kind, valueInt, valueType := some .int }, [])
    | .lengthType =>
      let sizeType ← Str.parseEnum ESizeType.names value
      .ok ({ type := kind, sizeType, valueType := some .int }, [])
    | .repeat | .cast =>
      .ok ({ type := kind, valueString := some value, valueType := some .bool }, [])
    | _ => .ok ({ type := kind, valueString := some value, valueType := some .string }, [])

/-- `ParseAttributes` with the node they are behind. -/
def parseAttributes (s : SchemeImporter) : List Str → Except Fault (List Attribute × List Node)
  | [] => .ok ([], [])
  | input :: inputs => do
    let first ← parseAttribute input s
    let rest ← parseAttributes s inputs
    .ok (first.1 :: rest.1, first.2 ++ rest.2)

/-- `ParseAttributes` of an instruction; the types of the attributes stay empty. -/
def parseInstructionAttributes : List Str → Except Fault Unit
  | [] => .ok ()
  | input :: inputs => do
    let split := Str.split 0x3D (← Str.inner (Str.trim input))
    let name ← Str.item split 0
    let _ ← Str.item split 1
    let kind ← EAttribute.parse (Str.trim name)
    if kind = .none then .error (.raised .notImplemented) else parseInstructionAttributes inputs

/-- `FirstOrDefault` of a type. -/
def find (kind : EAttribute) (attributes : List Attribute) : Option Attribute :=
  attributes.find? (·.type = kind)

/-- `First` of a type. -/
def first (kind : EAttribute) (attributes : List Attribute) : Except Fault Attribute :=
  match find kind attributes with
  | some atr => .ok atr
  | none => .error (.raised .invalidOperation)

def validateForRepeat (attributes : List Attribute) : Except Fault Unit :=
  let any kind := (find kind attributes).isSome
  let isAlgoFunc := attributes.any fun atr =>
    atr.type = .conditionValue && atr.valueString = some (ascii "Func")
  if any .conditionValue && any .separator then
    .error (.thrown .format "Incompatible atrs. ConditionValue and Separator")
  else if any .conditionType && (any .separator != any .enclose) then
    .error (.thrown .format "Separator And Enclose must be specified together")
  else if isAlgoFunc && (isAlgoFunc != any .conditionValue) then
    .error (.thrown .format "Algo Func and ConditionValue Must be specified together")
  else .ok ()

/-! ### Words in front of a body -/

structure Meta where
  name : Str
  size : ℤ := 0
  sizeType : ℤ := 0
  deriving DecidableEq, Repr

/-- Attributes that are neither a size nor the kind of a length are refused, and the type
`None` with a fault of its own. -/
def readMeta (ofNone : ExceptionType) (s : SchemeImporter) :
    List Str → Meta → Except Fault (Meta × List Node)
  | [], words => .ok (words, [])
  | input :: inputs, words => do
    let atr ← parseAttribute input s
    let words ←
      match atr.1.type with
      | .none => .error (.raised ofNone)
      | .size => .ok { words with size := atr.1.valueInt }
      | .lengthType => .ok { words with sizeType := atr.1.sizeType }
      | _ => .error (.raised .notImplemented)
    let rest ← readMeta ofNone s inputs words
    .ok (rest.1, atr.2 ++ rest.2)

def parseMeta (ofNone : ExceptionType) (value : Str) (s : SchemeImporter) :
    Except Fault (Meta × List Node) :=
  match Str.split 0x20 value with
  | [] => .error (.raised .indexOutOfRange)
  | name :: inputs => readMeta ofNone s inputs { name }

def parseItemMeta : Str → SchemeImporter → Except Fault (Meta × List Node) :=
  parseMeta .notImplemented

def parseFrameMeta : Str → SchemeImporter → Except Fault (Meta × List Node) :=
  parseMeta .argumentOutOfRange

end SchemeText

end DecodingProxy.MappedFrameReader
