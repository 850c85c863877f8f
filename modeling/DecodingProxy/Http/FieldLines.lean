import DecodingProxy.Http.Messages
import Mathlib.Data.List.TakeWhile

/-!
# Field lines

A header block whose lines are taken apart: a start line and fields with a name, a value
and the white space around it. A number in a value is one or more digits with or without a
sign; `int.Parse` reads it when it fits an `int`.
-/

namespace DecodingProxy.Http
open DecodingProxy.Runtime

/-- A letter, a digit or one of the other bytes of a token. -/
def IsTokenByte (b : UInt8) : Prop :=
  b = 0x21 ∨ 0x23 ≤ b ∧ b ≤ 0x27 ∨ b = 0x2A ∨ b = 0x2B ∨ b = 0x2D ∨ b = 0x2E ∨
    0x30 ≤ b ∧ b ≤ 0x39 ∨ 0x41 ≤ b ∧ b ≤ 0x5A ∨ 0x5E ≤ b ∧ b ≤ 0x7A ∨ b = 0x7C ∨ b = 0x7E

instance : DecidablePred IsTokenByte := fun _ => inferInstanceAs (Decidable (_ ∨ _))

def IsToken (bytes : List UInt8) : Prop := bytes ≠ [] ∧ ∀ b ∈ bytes, IsTokenByte b

instance (bytes : List UInt8) : Decidable (IsToken bytes) := instDecidableAnd

/-- What a value may hold: visible characters, bytes above ASCII, spaces and tabs. -/
def IsFieldByte (b : UInt8) : Prop := b = 0x09 ∨ 0x20 ≤ b ∧ b ≠ 0x7F

instance : DecidablePred IsFieldByte := fun _ => inferInstanceAs (Decidable (_ ∨ _))

def IsVersion (version : List UInt8) : Prop :=
  ∃ major minor, IsDigits [major] ∧ IsDigits [minor] ∧
    version = asciiBytes "HTTP/" ++ [major, 0x2E, minor]

def IsRequestLine (line : List UInt8) : Prop :=
  ∃ method target version, IsToken method ∧ target ≠ [] ∧ (∀ b ∈ target, 0x21 ≤ b ∧ b ≤ 0x7E) ∧
    IsVersion version ∧ line = method ++ 0x20 :: (target ++ 0x20 :: version)

def IsStatusLine (line : List UInt8) : Prop :=
  ∃ version code reason, IsVersion version ∧ IsDigits code ∧ code.length = 3 ∧
    (∀ b ∈ reason, IsFieldByte b) ∧ line = version ++ 0x20 :: (code ++ 0x20 :: reason)

/-- A name, as it stands in a field or as it is asked for. -/
structure FieldName where
  bytes : List UInt8
  token : IsToken bytes

/-- `name:` and the value between optional white space. -/
structure Field where
  name : FieldName
  before : List UInt8
  value : List UInt8
  after : List UInt8
  ows : IsOws before ∧ IsOws after
  content : ∀ b ∈ value, IsFieldByte b
  /-- The white space at the ends of the value is not a part of it. -/
  trimmed : ∀ b, value.head? = some b ∨ value.getLast? = some b → b ≠ 0x20 ∧ b ≠ 0x09

def Field.line (f : Field) : List UInt8 :=
  f.name.bytes ++ COLON :: (f.before ++ f.value ++ f.after)

/-- The whole name is the asked one, but for the letter case. -/
def Field.HasName (name : FieldName) (f : Field) : Prop :=
  f.name.bytes.map lowerByte = name.bytes.map lowerByte

instance (name : FieldName) : DecidablePred (Field.HasName name) :=
  fun _ => inferInstanceAs (Decidable (_ = _))

structure FieldBlock where
  startLine : List UInt8
  isStartLine : IsRequestLine startLine ∨ IsStatusLine startLine
  fields : List Field

namespace FieldBlock

/-- The lines that are not empty, without their line ends. -/
def contents (h : FieldBlock) : List (List UInt8) := h.startLine :: h.fields.map Field.line

/-- Of the fields with the name, the first. -/
def find (h : FieldBlock) (name : FieldName) : Option Field :=
  h.fields.find? fun f => decide (f.HasName name)

end FieldBlock

/-- The number a value writes. -/
def number (value : List UInt8) : Option ℤ :=
  let (negative, digits) := Str.takeSign (chars value)
  if digits ≠ [] ∧ digits.all Str.isDigit then
    some (if negative then -(Str.decimal digits : ℤ) else Str.decimal digits)
  else none

/-! ### No line end inside a line -/

theorem lf_not_token : ¬ IsTokenByte LF := by decide

theorem lf_not_field : ¬ IsFieldByte LF := by decide

theorem IsDigits.lf {digits : List UInt8} (h : IsDigits digits) : LF ∉ digits := by
  intro hm
  have hlow := (h.2 LF hm).1
  revert hlow
  decide

theorem IsVersion.lf {version : List UInt8} (h : IsVersion version) : LF ∉ version := by
  obtain ⟨major, minor, hmajor, hminor, rfl⟩ := h
  have hscheme : LF ∉ asciiBytes "HTTP/" := by decide
  have hdot : LF ≠ 0x2E := by decide
  have hfirst := hmajor.lf
  have hsecond := hminor.lf
  simp only [List.mem_append, List.mem_cons, List.not_mem_nil, or_false, not_or] at hfirst hsecond ⊢
  exact ⟨hscheme, hfirst, hdot, hsecond⟩

theorem IsRequestLine.content {line : List UInt8} (h : IsRequestLine line) :
    line ≠ [] ∧ LF ∉ line := by
  obtain ⟨method, target, version, hmethod, -, htarget, hversion, rfl⟩ := h
  have hspace : LF ≠ 0x20 := by decide
  have hm : LF ∉ method := fun hm => lf_not_token (hmethod.2 LF hm)
  have ht : LF ∉ target := by
    intro hm
    have hlow := (htarget LF hm).1
    revert hlow
    decide
  refine ⟨by simp, ?_⟩
  simp only [List.mem_append, List.mem_cons, not_or]
  exact ⟨hm, hspace, ht, hspace, hversion.lf⟩

theorem IsStatusLine.content {line : List UInt8} (h : IsStatusLine line) :
    line ≠ [] ∧ LF ∉ line := by
  obtain ⟨version, code, reason, hversion, hcode, -, hreason, rfl⟩ := h
  have hspace : LF ≠ 0x20 := by decide
  have hr : LF ∉ reason := fun hm => lf_not_field (hreason LF hm)
  refine ⟨by simp, ?_⟩
  simp only [List.mem_append, List.mem_cons, not_or]
  exact ⟨hversion.lf, hspace, hcode.lf, hspace, hr⟩

theorem IsOws.lf {bytes : List UInt8} (h : IsOws bytes) : LF ∉ bytes := by
  intro hm
  rcases h LF hm with he | he
  · revert he
    decide
  · revert he
    decide

theorem Field.line_content (f : Field) : f.line ≠ [] ∧ LF ∉ f.line := by
  have hcolon : LF ≠ COLON := by decide
  have hname : LF ∉ f.name.bytes := fun hm => lf_not_token (f.name.token.2 LF hm)
  have hvalue : LF ∉ f.value := fun hm => lf_not_field (f.content LF hm)
  refine ⟨by simp [line], ?_⟩
  unfold line
  simp only [List.mem_append, List.mem_cons, not_or]
  exact ⟨hname, hcolon, ⟨f.ows.1.lf, hvalue⟩, f.ows.2.lf⟩

def FieldBlock.header (h : FieldBlock) : HeaderBlock where
  startLine := h.startLine
  fields := h.fields.map Field.line
  content := by
    intro l hl
    rcases List.mem_cons.mp hl with rfl | hf
    · exact h.isStartLine.elim IsRequestLine.content IsStatusLine.content
    · obtain ⟨f, -, rfl⟩ := List.mem_map.mp hf
      exact f.line_content

theorem FieldBlock.lines_eq (h : FieldBlock) :
    h.header.lines = (h.contents.map fun l => l ++ CRLF) ++ [CRLF] := rfl

theorem FieldBlock.find_some {h : FieldBlock} {name : FieldName} {f : Field}
    (hfind : h.find name = some f) : f.HasName name := by
  have hnamed := List.find?_some hfind
  simpa using hnamed

/-! ### Numbers -/

theorem isTrailing_iff {s t : Str} (hsuffix : t <:+ s)
    (hlast : ∀ c, s.getLast? = some c → Str.isWhite c = false ∧ c ≠ 0) :
    Str.isTrailing t = true ↔ t = [] := by
  constructor
  · intro htrailing
    by_contra hne
    obtain ⟨front, c, rfl⟩ := (List.eq_nil_or_concat' t).resolve_left hne
    obtain ⟨more, rfl⟩ := hsuffix
    obtain ⟨hwhite, hzero⟩ := hlast c (by simp)
    -- the last one is not dropped
    have hmem : c ∈ (front ++ [c]).dropWhile Str.isWhite := by
      rw [List.dropWhile_append]
      split_ifs
      · simp [hwhite]
      · simp
    have hall := List.all_eq_true.mp htrailing c hmem
    exact hzero (by simpa using hall)
  · rintro rfl
    rfl

theorem takeSign_suffix (s : Str) : (Str.takeSign s).2 <:+ s := by
  unfold Str.takeSign
  split
  · exact List.suffix_cons _ _
  · exact List.suffix_cons _ _
  · exact List.suffix_refl _

theorem chars_getLast {bytes : List UInt8} {c : UInt16} (h : (chars bytes).getLast? = some c) :
    ∃ b, bytes.getLast? = some b ∧ b.toUInt16 = c := by
  unfold chars at h
  rw [List.getLast?_map] at h
  exact Option.map_eq_some_iff.mp h

theorem fieldByte_not_white {b : UInt8} (hfield : IsFieldByte b) (hows : b ≠ 0x20 ∧ b ≠ 0x09) :
    Str.isWhite b.toUInt16 = false ∧ b.toUInt16 ≠ 0 := by
  have hlow : 0x20 ≤ b := (hfield.resolve_left hows.2).1
  have hspace := hows.1
  have h20 : (0x20 : UInt16).toNat = 0x20 := rfl
  have h09 : (0x09 : UInt16).toNat = 0x09 := rfl
  have h0D : (0x0D : UInt16).toNat = 0x0D := rfl
  have h00 : (0 : UInt16).toNat = 0 := rfl
  have hb20 : (0x20 : UInt8).toNat = 0x20 := rfl
  simp only [Str.isWhite, Bool.or_eq_false_iff, Bool.and_eq_false_iff, decide_eq_false_iff_not]
  simp only [UInt8.le_iff_toNat_le, UInt16.le_iff_toNat_le, ne_eq, ← UInt8.toNat_inj,
    ← UInt16.toNat_inj, UInt8.toNat_toUInt16] at hlow hspace ⊢
  omega

/-- A value that is a number is read when it fits, and no other value is. -/
theorem parseInt_value {value : List UInt8} (content : ∀ b ∈ value, IsFieldByte b)
    (trimmed : ∀ b, value.head? = some b ∨ value.getLast? = some b → b ≠ 0x20 ∧ b ≠ 0x09) (z : ℤ) :
    Str.parseInt (chars value) = .ok z ↔ number value = some z ∧ -2 ^ 31 ≤ z ∧ z < 2 ^ 31 := by
  have hlast : ∀ c, (chars value).getLast? = some c → Str.isWhite c = false ∧ c ≠ 0 := by
    intro c hc
    obtain ⟨b, hb, rfl⟩ := chars_getLast hc
    exact fieldByte_not_white (content b (List.mem_of_getLast? hb)) (trimmed b (.inr hb))
  have hdrop : (chars value).dropWhile Str.isWhite = chars value := by
    cases value with
    | nil => rfl
    | cons b more =>
      have hb := fieldByte_not_white (content b List.mem_cons_self) (trimmed b (.inl rfl))
      simp [chars, hb.1]
  have hsuffix := takeSign_suffix (chars value)
  unfold Str.parseInt number
  rw [hdrop]
  generalize Str.takeSign (chars value) = signed at hsuffix ⊢
  obtain ⟨negative, rest⟩ := signed
  have htrailing := isTrailing_iff ((List.dropWhile_suffix Str.isDigit).trans hsuffix) hlast
  rw [List.dropWhile_eq_nil_iff, ← List.all_eq_true] at htrailing
  dsimp only at htrailing ⊢
  simp only [htrailing]
  by_cases hdigits : rest ≠ [] ∧ rest.all Str.isDigit = true
  · have htake : rest.takeWhile Str.isDigit = rest :=
      List.takeWhile_eq_self_iff.mpr (List.all_eq_true.mp hdigits.2)
    rw [htake, if_pos hdigits, if_neg (not_or.mpr ⟨hdigits.1, not_not.mpr hdigits.2⟩)]
    generalize (if negative = true then -(Str.decimal rest : ℤ) else Str.decimal rest) = value
    constructor
    · intro hparse
      split_ifs at hparse with hrange
      cases hparse
      exact ⟨rfl, by omega, by omega⟩
    · rintro ⟨hvalue, hlow, hhigh⟩
      cases hvalue
      rw [if_neg (by omega)]
  · have hbad : rest.takeWhile Str.isDigit = [] ∨ ¬ rest.all Str.isDigit = true := by
      by_contra hgood
      obtain ⟨hne, hall⟩ := not_or.mp hgood
      refine hdigits ⟨?_, not_not.mp hall⟩
      rintro rfl
      exact hne rfl
    rw [if_neg hdigits, if_pos hbad]
    constructor
    · intro hparse
      cases hparse
    · rintro ⟨hvalue, -⟩
      cases hvalue

theorem parseInt_range {s : Str} {z : ℤ} (h : Str.parseInt s = .ok z) :
    -2 ^ 31 ≤ z ∧ z < 2 ^ 31 := by
  unfold Str.parseInt at h
  dsimp only at h
  split_ifs at h with hdigits hrange
  all_goals
    cases h
    omega

theorem IsDigits.fieldByte {digits : List UInt8} (h : IsDigits digits) :
    ∀ b ∈ digits, IsFieldByte b ∧ b ≠ 0x20 ∧ b ≠ 0x09 := by
  intro b hb
  obtain ⟨hlow, hhigh⟩ := h.2 b hb
  refine ⟨.inr ⟨UInt8.le_trans (by decide) hlow, ?_⟩, ?_, ?_⟩
  all_goals
    rintro rfl
    revert hlow hhigh
    decide

theorem number_digits {digits : List UInt8} (h : IsDigits digits) :
    number digits = some (Str.decimal (chars digits) : ℤ) := by
  have hall : (chars digits).all Str.isDigit = true := by
    rw [List.all_eq_true]
    intro c hc
    obtain ⟨b, hb, rfl⟩ := List.mem_map.mp hc
    have hb := h.2 b hb
    have h30 : (0x30 : UInt16).toNat = 0x30 := rfl
    have h39 : (0x39 : UInt16).toNat = 0x39 := rfl
    have hb30 : (0x30 : UInt8).toNat = 0x30 := rfl
    have hb39 : (0x39 : UInt8).toNat = 0x39 := rfl
    simp only [Str.isDigit, Bool.and_eq_true, decide_eq_true_eq]
    simp only [UInt8.le_iff_toNat_le, UInt16.le_iff_toNat_le, UInt8.toNat_toUInt16] at hb ⊢
    omega
  have hsign : Str.takeSign (chars digits) = (false, chars digits) := by
    unfold Str.takeSign
    split
    · rename_i more hmore
      rw [hmore] at hall
      cases hall
    · rename_i more hmore
      rw [hmore] at hall
      cases hall
    · rfl
  have hne : chars digits ≠ [] := by simpa [chars] using h.1
  unfold number
  rw [hsign]
  exact if_pos ⟨hne, hall⟩

theorem parseInt_digits {digits : List UInt8} (h : IsDigits digits)
    (hfits : Str.decimal (chars digits) < 2 ^ 31) :
    Str.parseInt (chars digits) = .ok (Str.decimal (chars digits) : ℤ) := by
  have hends : ∀ b, digits.head? = some b ∨ digits.getLast? = some b → b ≠ 0x20 ∧ b ≠ 0x09 :=
    fun b hb => (h.fieldByte b (hb.elim List.mem_of_head? List.mem_of_getLast?)).2
  refine (parseInt_value (fun b hb => (h.fieldByte b hb).1) hends _).mpr
    ⟨number_digits h, by omega, by omega⟩

end DecodingProxy.Http
