import DecodingProxy.Runtime.Faults
import DecodingProxy.Runtime.Utf8
import Mathlib.Data.List.Infix

/-!
# Strings and numbers in text

`Split`, `Substring`, ordinal `Contains` and `int.Parse`. What depends on the culture
data of the platform, lower case and the comparison that ignores case, is a parameter
with its behaviour on plain ASCII text as laws.
-/

namespace DecodingProxy.Runtime

namespace Str

/-- `s.Split(separator)`: the pieces between the separators, empty ones included. -/
def split (separator : UInt16) : Str → List Str
  | [] => [[]]
  | c :: s =>
    if c = separator then [] :: split separator s
    else
      match split separator s with
      | piece :: pieces => (c :: piece) :: pieces
      | [] => [[c]]

theorem split_of_not_mem {separator : UInt16} {s : Str} (h : separator ∉ s) :
    split separator s = [s] := by
  induction s with
  | nil => rfl
  | cons c s ih =>
    simp only [List.mem_cons, not_or] at h
    rw [split, if_neg (Ne.symm h.1), ih h.2]

theorem split_append {separator : UInt16} {piece : Str} (h : separator ∉ piece) (rest : Str) :
    split separator (piece ++ separator :: rest) = piece :: split separator rest := by
  induction piece with
  | nil => simp [split]
  | cons c piece ih =>
    simp only [List.mem_cons, not_or] at h
    rw [List.cons_append, split, if_neg (Ne.symm h.1), ih h.2]

theorem head?_split (separator : UInt16) (s : Str) :
    (split separator s).head? = some (s.takeWhile (· ≠ separator)) := by
  induction s with
  | nil => rfl
  | cons c s ih =>
    unfold split
    split_ifs with hc
    · simp [hc]
    · rw [List.takeWhile_cons_of_pos (by simpa using hc)]
      cases hsplit : split separator s with
      | nil =>
        rw [hsplit] at ih
        cases ih
      | cons piece pieces =>
        rw [hsplit] at ih
        exact congrArg (fun piece => some (c :: piece)) (Option.some.inj ih)

def substring (startIndex : ℕ) (s : Str) : Except Fault Str :=
  if s.length < startIndex then .error (.raised .argumentOutOfRange) else .ok (s.drop startIndex)

/-- `s.Contains(value)`, ordinal. -/
def contains (s value : Str) : Bool := decide (value <:+: s)

/-- `split[index]` of an array. -/
def item {α : Type*} (array : List α) (index : ℕ) : Except Fault α :=
  match array[index]? with
  | some a => .ok a
  | none => .error (.raised .indexOutOfRange)

/-- The longest string the runtime allocates. -/
def maxLength : ℕ := 0x3FFFFFDF

def isWhite (c : UInt16) : Bool := c = 0x20 || (0x09 ≤ c && c ≤ 0x0D)

def isDigit (c : UInt16) : Bool := 0x30 ≤ c && c ≤ 0x39

/-- The value of a hexadecimal digit. -/
def hexValue (c : UInt16) : Option ℕ :=
  if 0x30 ≤ c ∧ c ≤ 0x39 then some (c.toNat - 0x30)
  else if 0x41 ≤ c ∧ c ≤ 0x46 then some (c.toNat - 0x41 + 10)
  else if 0x61 ≤ c ∧ c ≤ 0x66 then some (c.toNat - 0x61 + 10)
  else none

def decimal (digits : Str) : ℕ := digits.foldl (fun n c => n * 10 + (c.toNat - 0x30)) 0

def hexadecimal (digits : Str) : ℕ := digits.foldl (fun n c => n * 16 + (hexValue c).getD 0) 0

/-- What may follow the digits: white space, then null characters. -/
def isTrailing (s : Str) : Bool := (s.dropWhile isWhite).all (· = 0)

/-- The sign in front of a number. -/
def takeSign : Str → Bool × Str
  | 0x2D :: s => (true, s)
  | 0x2B :: s => (false, s)
  | s => (false, s)

/-- `int.Parse(s)`. -/
def parseInt (s : Str) : Except Fault ℤ :=
  let (negative, rest) := takeSign (s.dropWhile isWhite)
  let digits := rest.takeWhile isDigit
  if digits = [] ∨ ¬ isTrailing (rest.dropWhile isDigit) then .error (.raised .format)
  else
    let value : ℤ := if negative then -(decimal digits : ℤ) else decimal digits
    if value < -2 ^ 31 ∨ 2 ^ 31 ≤ value then .error (.raised .overflow) else .ok value

/-- `int.Parse(s, NumberStyles.HexNumber)`: eight digits give a negative number from
`80000000` on. -/
def parseHex (s : Str) : Except Fault ℤ :=
  let rest := s.dropWhile isWhite
  let digits := rest.takeWhile fun c => (hexValue c).isSome
  if digits = [] ∨ ¬ isTrailing (rest.dropWhile fun c => (hexValue c).isSome) then
    .error (.raised .format)
  else if 2 ^ 32 ≤ hexadecimal digits then .error (.raised .overflow)
  else .ok (int32 (hexadecimal digits))

/-- `byte.Parse(s, NumberStyles.HexNumber)`. -/
def parseHexByte (s : Str) : Except Fault UInt8 :=
  let rest := s.dropWhile isWhite
  let digits := rest.takeWhile fun c => (hexValue c).isSome
  if digits = [] ∨ ¬ isTrailing (rest.dropWhile fun c => (hexValue c).isSome) then
    .error (.raised .format)
  else if 2 ^ 8 ≤ hexadecimal digits then .error (.raised .overflow)
  else .ok (UInt8.ofNat (hexadecimal digits))

/-- Lower case of an ASCII code unit. -/
def lower (c : UInt16) : UInt16 := if 0x41 ≤ c ∧ c ≤ 0x5A then c + 0x20 else c

/-- Text no platform disagrees on: printable ASCII, tabs and line ends. -/
def isPlain (c : UInt16) : Bool := c = 0x09 || c = 0x0A || c = 0x0D || (0x20 ≤ c && c ≤ 0x7E)

end Str

/-- A string within its length. -/
abbrev Text := { s : Str // s.length ≤ Str.maxLength }

/-- `ToLowerInvariant` and `Contains(value, InvariantCultureIgnoreCase)`. -/
structure Culture where
  toLowerInvariant : Str → Str
  containsIgnoreCase : Str → Str → Bool
  lower_length : ∀ s, (toLowerInvariant s).length = s.length
  lower_plain : ∀ s, s.all Str.isPlain = true → toLowerInvariant s = s.map Str.lower
  contains_plain : ∀ s value, s.all Str.isPlain = true → value.all Str.isPlain = true →
    containsIgnoreCase s value = decide (value.map Str.lower <:+: s.map Str.lower)

/-- The platform without culture data: only ASCII letters have a case. -/
def Culture.invariantGlobalization : Culture where
  toLowerInvariant s := s.map Str.lower
  containsIgnoreCase s value := decide (value.map Str.lower <:+: s.map Str.lower)
  lower_length _ := List.length_map _
  lower_plain _ _ := rfl
  contains_plain _ _ _ _ := rfl

/-- `char.ToLowerInvariant`: ASCII as everywhere, and no other byte becomes ASCII. -/
structure CharCase where
  toLowerInvariant : UInt16 → UInt16
  lower_ascii : ∀ c < 0x80, toLowerInvariant c = Str.lower c
  lower_latin : ∀ c, 0x80 ≤ c → c < 0x100 → 0x80 ≤ toLowerInvariant c

def CharCase.invariantGlobalization : CharCase where
  toLowerInvariant := Str.lower
  lower_ascii _ _ := rfl
  lower_latin c hlow _ := by
    have hupper : ¬ (0x41 ≤ c ∧ c ≤ 0x5A) := by
      rintro ⟨-, hle⟩
      exact absurd (UInt16.le_trans hlow hle) (by decide)
    rwa [Str.lower, if_neg hupper]

/-- A capital letter of ASCII. -/
def Str.isCapital (c : UInt16) : Bool := 0x41 ≤ c && c ≤ 0x5A

/-- `ToUpper()`, `StartsWith(value)` and `Equals(value, InvariantCultureIgnoreCase)`: what they do
with words of capital letters, in which all cultures agree. -/
structure CurrentCulture where
  toUpper : Str → Str
  startsWith : Str → Str → Bool
  equalsIgnoreCase : Str → Str → Bool
  upper_word : ∀ word, word.all Str.isCapital = true → toUpper word = word
  upper_words : ∀ word rest, word.all Str.isCapital = true →
    ∃ rest', toUpper (word ++ 0x20 :: rest) = word ++ 0x20 :: rest'
  starts_word : ∀ word rest, word.all Str.isCapital = true →
    startsWith (word ++ 0x20 :: rest) word = true
  equals_self : ∀ s, equalsIgnoreCase s s = true
  equals_first : ∀ c d s t, Str.isCapital c = true → Str.isCapital d = true →
    equalsIgnoreCase (c :: s) (d :: t) = true → c = d

/-- Upper case of an ASCII code unit. -/
def Str.upper (c : UInt16) : UInt16 := if 0x61 ≤ c ∧ c ≤ 0x7A then c - 0x20 else c

theorem Str.upper_capital {c : UInt16} (h : Str.isCapital c = true) : Str.upper c = c := by
  have hle : c ≤ 0x5A := by
    simp only [isCapital, Bool.and_eq_true, decide_eq_true_eq] at h
    exact h.2
  refine if_neg fun hlower => ?_
  exact absurd (UInt16.le_trans hlower.1 hle) (by decide)

theorem Str.map_upper_word {word : Str} (h : word.all Str.isCapital = true) :
    word.map Str.upper = word := by
  refine (List.map_congr_left fun c hc => ?_).trans (List.map_id word)
  exact Str.upper_capital (List.all_eq_true.mp h c hc)

/-- The platform without culture data: code units are compared as they are. -/
def CurrentCulture.invariantGlobalization : CurrentCulture where
  toUpper s := s.map Str.upper
  startsWith s value := value.isPrefixOf s
  equalsIgnoreCase s value := decide (s.map Str.upper = value.map Str.upper)
  upper_word _ := Str.map_upper_word
  upper_words word rest h := ⟨rest.map Str.upper, by
    rw [List.map_append, Str.map_upper_word h, List.map_cons, show Str.upper 0x20 = 0x20 by decide]⟩
  starts_word word rest _ := by
    rw [List.isPrefixOf_iff_prefix]
    exact List.prefix_append _ _
  equals_self s := decide_eq_true rfl
  equals_first c d s t hc hd h := by
    have heq := of_decide_eq_true h
    rw [List.map_cons, List.map_cons, Str.upper_capital hc, Str.upper_capital hd] at heq
    exact (List.cons.inj heq).1

end DecodingProxy.Runtime
