import DecodingProxy.Runtime.Text

/-!
# More of `string`, `Enum.Parse` and `Regex.Unescape`

White space here is what `char.IsWhiteSpace` and `\s` of a regular expression mean by it.
-/

namespace DecodingProxy.Runtime

namespace Str

/-- `char.IsWhiteSpace`. -/
def isWhiteSpace (c : UInt16) : Bool :=
  (0x09 ≤ c && c ≤ 0x0D) || c = 0x20 || c = 0x85 || c = 0xA0 || c = 0x1680 ||
    (0x2000 ≤ c && c ≤ 0x200A) || c = 0x2028 || c = 0x2029 || c = 0x202F || c = 0x205F || c = 0x3000

def trimStartOf (trimmed : UInt16 → Bool) (s : Str) : Str := s.dropWhile trimmed

def trimEndOf (trimmed : UInt16 → Bool) (s : Str) : Str :=
  (s.reverse.dropWhile trimmed).reverse

def trimOf (trimmed : UInt16 → Bool) (s : Str) : Str := trimEndOf trimmed (trimStartOf trimmed s)

/-- `s.TrimStart()`. -/
def trimStart : Str → Str := trimStartOf isWhiteSpace

/-- `s.TrimEnd()`. -/
def trimEnd : Str → Str := trimEndOf isWhiteSpace

/-- `s.Trim()`. -/
def trim : Str → Str := trimOf isWhiteSpace

/-- A letter of ASCII. -/
def isAsciiLetter (c : UInt16) : Bool := (0x41 ≤ c && c ≤ 0x5A) || (0x61 ≤ c && c ≤ 0x7A)

/-- `s.IndexOf(value)`. -/
def indexOf (value : UInt16) (s : Str) : Option ℕ := s.findIdx? (· = value)

/-- `s.Substring(startIndex, length)`. -/
def substringOf (startIndex : ℕ) (length : ℤ) (s : Str) : Except Fault Str :=
  if length < 0 ∨ s.length < startIndex + length then .error (.raised .argumentOutOfRange)
  else .ok ((s.drop startIndex).take length.toNat)

/-- `s.Substring(1, s.Length - 2)`: without the first and the last code unit. -/
def inner (s : Str) : Except Fault Str := substringOf 1 (s.length - 2) s

/-- `s.Split(separators, StringSplitOptions.RemoveEmptyEntries)`. -/
def splitRemoveEmpty (isSeparator : UInt16 → Bool) (s : Str) : List Str :=
  (s.splitOnP isSeparator).filter (· ≠ [])

/-- `bool.Parse`. -/
def parseBool (s : Str) : Except Fault Bool :=
  let value := (trimOf (fun c => isWhiteSpace c || c = 0) s).map lower
  if value = ascii "true" then .ok true
  else if value = ascii "false" then .ok false
  else .error (.raised .format)

/-- `Convert.ToByte(s, 16)`. -/
def toByte16 (s : Str) : Except Fault UInt8 :=
  match s with
  | [] => .error (.raised .argumentOutOfRange)
  | 0x2D :: _ => .error (.raised .argument)
  | _ =>
    let unsigned := if s.head? = some 0x2B then s.drop 1 else s
    let digits :=
      match unsigned with
      | 0x30 :: 0x78 :: digits | 0x30 :: 0x58 :: digits => digits
      | digits => digits
    if digits = [] ∨ ¬ digits.all (fun c => (hexValue c).isSome) then .error (.raised .format)
    else if 2 ^ 8 ≤ hexadecimal digits then .error (.raised .overflow)
    else .ok (UInt8.ofNat (hexadecimal digits))

/-- The numbers of names separated by commas, with their bits put together. -/
def parseNames (names : List String) (s : Str) : Except Fault ℕ :=
  (split 0x2C s).foldlM
    (fun bits name =>
      match names.findIdx? fun known => ascii known = trim name with
      | some value => .ok (bits ||| value)
      | none => .error (.raised .argument)) 0

/-- `Enum.Parse` for an enumeration whose names are numbered from zero. A number stands for
itself, whether it has a name or not. -/
def parseEnum (names : List String) (s : Str) : Except Fault ℤ :=
  match trimStart s with
  | [] => .error (.raised .argument)
  | c :: s =>
    if isDigit c || c = 0x2B || c = 0x2D then
      match parseInt (c :: s) with
      | .error (.raised .format) => (parseNames names (c :: s)).map fun value => value
      | number => number
    else (parseNames names (c :: s)).map fun value => value

/-! ### Escapes -/

/-- `Regex.Unescape` takes exactly so many hexadecimal digits. -/
def scanHex (count : ℕ) (s : Str) : Except Fault (UInt16 × Str) :=
  let digits := s.take count
  if digits.length = count ∧ digits.all (fun c => (hexValue c).isSome) then
    .ok (UInt16.ofNat (hexadecimal digits), s.drop count)
  else .error (.raised .argument)

def isOctal (c : UInt16) : Bool := 0x30 ≤ c && c ≤ 0x37

/-- At most three octal digits, of which eight bits are kept. -/
def scanOctal (s : Str) : UInt16 × Str :=
  let digits := (s.take 3).takeWhile isOctal
  let value := digits.foldl (fun n c => n * 8 + (c.toNat - 0x30)) 0
  (UInt16.ofNat (value % 0x100), s.drop digits.length)

def scanControl : Str → Except Fault (UInt16 × Str)
  | [] => .error (.raised .argument)
  | c :: s =>
    let upper := if 0x61 ≤ c ∧ c ≤ 0x7A then c - 0x20 else c
    if 0x40 ≤ upper ∧ upper < 0x60 then .ok (upper - 0x40, s) else .error (.raised .argument)

/-- The letters that stand for a control character. -/
def escapes : List (UInt16 × UInt16) :=
  [(0x61, 0x07), (0x62, 0x08), (0x65, 0x1B), (0x66, 0x0C), (0x6E, 0x0A), (0x72, 0x0D), (0x74, 0x09),
    (0x76, 0x0B)]

/-- What stands behind a backslash. -/
def scanCharEscape (isWordChar : UInt16 → Bool) : Str → Except Fault (UInt16 × Str)
  | [] => .error (.raised .argument)
  | c :: s =>
    if isOctal c then .ok (scanOctal (c :: s))
    else if c = 0x78 then scanHex 2 s
    else if c = 0x75 then scanHex 4 s
    else if c = 0x63 then scanControl s
    else
      match escapes.lookup c with
      | some control => .ok (control, s)
      | none => if isWordChar c then .error (.raised .argument) else .ok (c, s)

/-- `Regex.Unescape`, for at most so many code units. -/
def unescapeFrom (isWordChar : UInt16 → Bool) : ℕ → Str → Except Fault Str
  | 0, _ => .ok []
  | _, [] => .ok []
  | left + 1, c :: s =>
    if c = 0x5C then do
      let scanned ← scanCharEscape isWordChar s
      let rest ← unescapeFrom isWordChar left scanned.2
      .ok (scanned.1 :: rest)
    else (unescapeFrom isWordChar left s).map (c :: ·)

def unescape (isWordChar : UInt16 → Bool) (s : Str) : Except Fault Str :=
  unescapeFrom isWordChar s.length s

end Str

namespace Utf8

def isHighSurrogate (c : UInt16) : Bool := 0xD800 ≤ c && c ≤ 0xDBFF

def isLowSurrogate (c : UInt16) : Bool := 0xDC00 ≤ c && c ≤ 0xDFFF

/-- The bytes of a character, of which `tail` come after the first. -/
def encodeBytes (lead tail value : ℕ) : List UInt8 :=
  UInt8.ofNat (lead + value / 0x40 ^ tail) ::
    (List.range tail).reverse.map fun i => UInt8.ofNat (0x80 + value / 0x40 ^ i % 0x40)

def encodeValue (value : ℕ) : List UInt8 :=
  if value < 0x80 then encodeBytes 0 0 value
  else if value < 0x800 then encodeBytes 0xC0 1 value
  else if value < 0x10000 then encodeBytes 0xE0 2 value
  else encodeBytes 0xF0 3 value

/-- `Encoding.UTF8.GetBytes`: half a surrogate pair becomes U+FFFD. -/
def getBytes : Str → List UInt8
  | [] => []
  | [c] => encodeValue (if isHighSurrogate c || isLowSurrogate c then 0xFFFD else c.toNat)
  | c :: d :: s =>
    if isHighSurrogate c && isLowSurrogate d then
      encodeValue (0x10000 + (c.toNat - 0xD800) * 0x400 + (d.toNat - 0xDC00)) ++ getBytes s
    else
      encodeValue (if isHighSurrogate c || isLowSurrogate c then 0xFFFD else c.toNat) ++
        getBytes (d :: s)

example : getBytes [0x41, 0x416, 0x20AC, 0xD83D, 0xDE00] =
    [0x41, 0xD0, 0x96, 0xE2, 0x82, 0xAC, 0xF0, 0x9F, 0x98, 0x80] := by decide

end Utf8

end DecodingProxy.Runtime
