import DecodingProxy.Http.FieldLines
import DecodingProxy.Piped.HeaderMap

/-!
# Looking a field up

`TryGetFieldValueCI` and `TryGetFieldValueAsInt` look for a line that begins with the name,
without a look at the colon, and take what follows two more bytes. So one white-space byte
has to stand between the colon and the value, and a longer name is taken for the asked
one. The second one compares the letter case too.
-/

namespace DecodingProxy.Piped
open DecodingProxy.Runtime DecodingProxy.Runs DecodingProxy.Http ConstantsForHttp

/-- The answer about the host for the value of the field, of which a host and a port in digits
are understood. -/
def HostRight : Option (List UInt8) → Except Fault (Str × ℤ) → Prop
  | none, result => result = .error exHostRequired
  | some value, result =>
    (COLON ∉ value → result = .ok (Utf8.getString value, 80)) ∧
      ∀ host port, value = host ++ COLON :: port → COLON ∉ host → IsDigits port →
        Str.decimal (chars port) < 2 ^ 31 →
          result = .ok (Utf8.getString host, Str.decimal (chars port))

/-- The lookups of the name find the field with this name and give its value, the lookup of a
number the number it writes. The length of the body comes from its field when nothing else
decides it. -/
structure LookupsAgree (h : FieldBlock) (item : HttpBinaryMapped) (name : FieldName) : Prop where
  value : tryGetFieldValueCI name.bytes (item.mappedLines item.fieldsCountMapped) =
    (h.find name).map Field.value
  asInt : tryGetFieldValueAsInt name.bytes (item.mappedLines item.fieldsCount) =
    (h.find name).bind fun f => number f.value
  contentLength : name.bytes = NAME_CONTENT_LENGTH →
    checkNoBody item.type (item.mappedLines item.fieldsCount) = .ok false →
    checkChunked (item.mappedLines item.fieldsCountMapped) = false →
      item.getBodyLength = .ok (((h.find name).bind fun f => number f.value).getD (-3))
  host : name.bytes = NAME_HOST →
    HostRight ((h.find name).map Field.value) item.findHostAndPortFromField

/-- The line begins with the name, in any letter case, and has more than two bytes after it. -/
def GoesOn (name line : List UInt8) : Prop :=
  name.map lowerByte <+: line.map lowerByte ∧ name.length + 2 < line.length

instance (name line : List UInt8) : Decidable (GoesOn name line) := instDecidableAnd

/-- What is taken for the value. -/
def afterName (name line : List UInt8) : List UInt8 := line.drop (name.length + 2)

/-- The line begins with the name as it is asked for, and a number is taken from it. -/
def GivesNumber (name line : List UInt8) (z : ℤ) : Prop :=
  name <+: line ∧ name.length + 2 < line.length ∧
    Str.parseInt (chars (afterName name line)) = .ok z

/-- The first line of which `P` holds. -/
def FirstLine (P : List UInt8 → Prop) (lines : List (List UInt8)) (line : List UInt8) : Prop :=
  ∃ earlier later, lines = earlier ++ line :: later ∧ P line ∧ ∀ l ∈ earlier, ¬ P l

/-- One white-space byte stands between the colon and a value, and none after it. -/
def Spaced (f : Field) : Prop := f.before.length = 1 ∧ f.value ≠ [] ∧ f.after = []

/-- The first line that goes on after the name is the line of the field, and is spaced, or it
is another one with the same bytes in that place. -/
def Carries (h : FieldBlock) (name : FieldName) (f : Field) (line : List UInt8) : Prop :=
  FirstLine (GoesOn name.bytes) h.contents line ∧
    if line = f.line then Spaced f else afterName name.bytes line = f.value

/-- Of a value that is no number none is found. A number fits, and it is in the line that
carries the value, in the letter case asked for, or else the first line that gives a number
gives the same. -/
def Countable (h : FieldBlock) (name : FieldName) (f : Field) (line : List UInt8) : Prop :=
  match number f.value with
  | none => ∀ l ∈ h.contents, ∀ z, ¬ GivesNumber name.bytes l z
  | some z => -2 ^ 31 ≤ z ∧ z < 2 ^ 31 ∧
      (¬ name.bytes <+: line →
        ∃ l, FirstLine (fun l => ∃ z, GivesNumber name.bytes l z) h.contents l ∧
          GivesNumber name.bytes l z)

/-- No line may be taken for an absent field. -/
def Findable (h : FieldBlock) (name : FieldName) : Prop :=
  match h.find name with
  | none => ∀ l ∈ h.contents, ¬ GoesOn name.bytes l
  | some f => ∃ line, Carries h name f line ∧ Countable h name f line

/-! ### What a line gives -/

theorem valueOfLine_content {name l : List UInt8} :
    valueOfLine name (l ++ CRLF) =
      if name.length + 2 < l.length then some (afterName name l) else none := by
  have hcrlf : CRLF.length = 2 := rfl
  unfold valueOfLine
  rw [List.length_append, hcrlf]
  dsimp only
  by_cases hlong : name.length + 2 < l.length
  · rw [if_pos hlong, if_pos (by omega), List.drop_append_of_le_length (by omega),
      List.take_left' (by rw [List.length_drop]; omega), afterName]
  · rw [if_neg hlong, if_neg (by omega)]

theorem prefix_content {name l more : List UInt8} (hle : name.length ≤ l.length) :
    name <+: l ++ more ↔ name <+: l :=
  ⟨fun h => List.prefix_of_prefix_length_le h (List.prefix_append _ _) hle,
    fun h => h.trans (List.prefix_append _ _)⟩

theorem findSome_lines {β : Type*} {f g : List UInt8 → Option β}
    (hline : ∀ l, f (l ++ CRLF) = g l) (hempty : g [] = none) (contents : List (List UInt8)) :
    (contents.map (fun l => l ++ CRLF) ++ [CRLF]).findSome? f = contents.findSome? g := by
  have hlast : f CRLF = none := (hline []).trans hempty
  have hcomp : (f ∘ fun l => l ++ CRLF) = g := funext hline
  rw [List.findSome?_append, List.findSome?_map, hcomp, List.findSome?_singleton, hlast,
    Option.or_none]

theorem tryGetFieldValueCI_lines (name : List UInt8) (contents : List (List UInt8)) :
    tryGetFieldValueCI name (contents.map (fun l => l ++ CRLF) ++ [CRLF]) =
      contents.findSome? fun l => if GoesOn name l then some (afterName name l) else none := by
  refine findSome_lines (fun l => ?_) (if_neg fun h => by simp [GoesOn] at h) contents
  rw [valueOfLine_content, List.map_append]
  by_cases hlong : name.length + 2 < l.length
  · have hle : (name.map lowerByte).length ≤ (l.map lowerByte).length := by
      rw [List.length_map, List.length_map]
      omega
    have hgoes : GoesOn name l ↔ name.map lowerByte <+: l.map lowerByte :=
      and_iff_left hlong
    simp only [if_pos hlong, prefix_content hle, hgoes]
  · rw [if_neg hlong, ite_self, if_neg fun h => hlong h.2]

theorem tryGetFieldValueAsInt_lines (name : List UInt8) (contents : List (List UInt8)) :
    tryGetFieldValueAsInt name (contents.map (fun l => l ++ CRLF) ++ [CRLF]) =
      contents.findSome? fun l =>
        if name <+: l ∧ name.length + 2 < l.length then
          (Str.parseInt (chars (afterName name l))).toOption
        else none := by
  refine findSome_lines (fun l => ?_) (if_neg fun h => by simp at h) contents
  rw [valueOfLine_content]
  by_cases hlong : name.length + 2 < l.length
  · simp only [if_pos hlong, prefix_content (show name.length ≤ l.length by omega),
      and_iff_left hlong, Option.bind_some]
  · rw [if_neg hlong, Option.bind_none, ite_self, if_neg fun h => hlong h.2]

/-! ### The first line that is taken -/

theorem findSome_first {β : Type*} {f : List UInt8 → Option β} {P : List UInt8 → Prop}
    (hf : ∀ l, (f l).isSome ↔ P l) {lines : List (List UInt8)} {b : β} :
    lines.findSome? f = some b ↔ ∃ line, FirstLine P lines line ∧ f line = some b := by
  rw [List.findSome?_eq_some_iff]
  constructor
  · rintro ⟨earlier, line, later, hlines, hline, hnone⟩
    refine ⟨line, ⟨earlier, later, hlines, (hf line).mp (by simp [hline]), fun l hl hP => ?_⟩, hline⟩
    have hsome := (hf l).mpr hP
    rw [hnone l hl] at hsome
    cases hsome
  · rintro ⟨line, ⟨earlier, later, hlines, -, hearlier⟩, hline⟩
    refine ⟨earlier, line, later, hlines, hline, fun l hl => ?_⟩
    exact Option.not_isSome_iff_eq_none.mp fun hsome => hearlier l hl ((hf l).mp hsome)

theorem FirstLine.weaken {P Q : List UInt8 → Prop} (hPQ : ∀ l, Q l → P l)
    {lines : List (List UInt8)} {line : List UInt8} (h : FirstLine P lines line) (hQ : Q line) :
    FirstLine Q lines line := by
  obtain ⟨earlier, later, hlines, -, hearlier⟩ := h
  exact ⟨earlier, later, hlines, hQ, fun l hl hl' => hearlier l hl (hPQ l hl')⟩

theorem GivesNumber.goesOn {name line : List UInt8} {z : ℤ} (h : GivesNumber name line z) :
    GoesOn name line :=
  ⟨h.1.map lowerByte, h.2.1⟩

theorem value_none {name : List UInt8} {contents : List (List UInt8)} :
    tryGetFieldValueCI name (contents.map (fun l => l ++ CRLF) ++ [CRLF]) = none ↔
      ∀ l ∈ contents, ¬ GoesOn name l := by
  rw [tryGetFieldValueCI_lines, List.findSome?_eq_none_iff]
  simp

theorem value_some {name : List UInt8} {contents : List (List UInt8)} {value : List UInt8} :
    tryGetFieldValueCI name (contents.map (fun l => l ++ CRLF) ++ [CRLF]) = some value ↔
      ∃ line, FirstLine (GoesOn name) contents line ∧ afterName name line = value := by
  rw [tryGetFieldValueCI_lines, findSome_first (P := GoesOn name) fun l => by split <;> simp_all]
  refine exists_congr fun line => and_congr_right fun hfirst => ?_
  have hgoes : GoesOn name line := by
    obtain ⟨-, -, -, hgoes, -⟩ := hfirst
    exact hgoes
  rw [if_pos hgoes, Option.some.injEq]

theorem givesNumber_iff {name line : List UInt8} {z : ℤ} :
    (if name <+: line ∧ name.length + 2 < line.length then
        (Str.parseInt (chars (afterName name line))).toOption
      else none) = some z ↔ GivesNumber name line z := by
  unfold GivesNumber
  split_ifs with hline
  · cases Str.parseInt (chars (afterName name line)) <;> simp [Except.toOption, hline]
  · simp only [false_iff]
    exact fun h => hline ⟨h.1, h.2.1⟩

theorem asInt_none {name : List UInt8} {contents : List (List UInt8)} :
    tryGetFieldValueAsInt name (contents.map (fun l => l ++ CRLF) ++ [CRLF]) = none ↔
      ∀ l ∈ contents, ∀ z, ¬ GivesNumber name l z := by
  rw [tryGetFieldValueAsInt_lines, List.findSome?_eq_none_iff]
  apply forall₂_congr
  intro l _
  simp only [← givesNumber_iff]
  exact Option.eq_none_iff_forall_ne_some

theorem asInt_some {name : List UInt8} {contents : List (List UInt8)} {z : ℤ} :
    tryGetFieldValueAsInt name (contents.map (fun l => l ++ CRLF) ++ [CRLF]) = some z ↔
      ∃ l, FirstLine (fun l => ∃ z, GivesNumber name l z) contents l ∧ GivesNumber name l z := by
  have hsome : ∀ l, (if name <+: l ∧ name.length + 2 < l.length then
      (Str.parseInt (chars (afterName name l))).toOption else none).isSome ↔
        ∃ z, GivesNumber name l z := by
    intro l
    rw [Option.isSome_iff_exists]
    exact exists_congr fun z => givesNumber_iff
  rw [tryGetFieldValueAsInt_lines, findSome_first hsome]
  exact exists_congr fun l => and_congr_right fun _ => givesNumber_iff

/-! ### The line of the field itself -/

section Own
variable {f : Field} {name : FieldName} (hname : f.HasName name)
include hname

theorem hasName_length : name.bytes.length = f.name.bytes.length := by
  have hlen := congrArg List.length hname
  rw [List.length_map, List.length_map] at hlen
  exact hlen.symm

theorem afterName_line : afterName name.bytes f.line = (f.before ++ f.value ++ f.after).drop 1 := by
  unfold afterName Field.line
  rw [hasName_length hname, List.drop_append, List.drop_eq_nil_of_le (by omega), List.nil_append,
    show f.name.bytes.length + 2 - f.name.bytes.length = 1 + 1 by omega, List.drop_succ_cons]

theorem goesOn_line : GoesOn name.bytes f.line ↔
    1 < f.before.length + f.value.length + f.after.length := by
  have hprefix : name.bytes.map lowerByte <+: f.line.map lowerByte := by
    unfold Field.line
    rw [List.map_append, hname]
    exact List.prefix_append _ _
  unfold GoesOn
  rw [and_iff_right hprefix, hasName_length hname]
  unfold Field.line
  simp only [List.length_append, List.length_cons]
  omega

theorem spaced_iff (hgoes : GoesOn name.bytes f.line) :
    afterName name.bytes f.line = f.value ↔ Spaced f := by
  rw [afterName_line hname]
  constructor
  · intro hvalue
    have hlong := (goesOn_line hname).mp hgoes
    have hlen := congrArg List.length hvalue
    simp only [List.length_drop, List.length_append] at hlen
    have hne : f.value ≠ [] := List.length_pos_iff.mp (by omega)
    by_cases hafter : f.after = []
    · have hzero : f.after.length = 0 := by rw [hafter, List.length_nil]
      exact ⟨by omega, hne, hafter⟩
    · -- the last byte of the value would be white space
      have hpos := List.length_pos_iff.mpr hafter
      have hbefore : f.before = [] := List.length_eq_zero_iff.mp (by omega)
      obtain ⟨b, hb⟩ := List.length_eq_one_iff.mp (show f.after.length = 1 by omega)
      have hlast : f.value.getLast? = some b := by
        rw [← hvalue, hbefore, hb, List.nil_append]
        rw [List.drop_append_of_le_length (List.length_pos_iff.mpr hne), List.getLast?_append]
        simp
      have htrimmed := f.trimmed b (.inr hlast)
      rcases f.ows.2 b (by simp [hb]) with he | he
      · exact absurd he htrimmed.1
      · exact absurd he htrimmed.2
  · rintro ⟨hbefore, -, hafter⟩
    obtain ⟨b, hb⟩ := List.length_eq_one_iff.mp hbefore
    simp [hb, hafter]

end Own

/-! ### Both lookups -/

section Block
variable {h : FieldBlock} {name : FieldName}

theorem carries_iff {f : Field} (hfind : h.find name = some f) {line : List UInt8} :
    Carries h name f line ↔
      FirstLine (GoesOn name.bytes) h.contents line ∧ afterName name.bytes line = f.value := by
  apply and_congr_right
  intro hfirst
  split_ifs with hown
  · subst hown
    obtain ⟨-, -, -, hgoes, -⟩ := hfirst
    exact (spaced_iff (FieldBlock.find_some hfind) hgoes).symm
  · rfl

/-- Where a line carries the value, the number is found there or not at all. -/
theorem countable_iff {f : Field} {line : List UInt8}
    (hfirst : FirstLine (GoesOn name.bytes) h.contents line)
    (hvalue : afterName name.bytes line = f.value) :
    Countable h name f line ↔
      tryGetFieldValueAsInt name.bytes h.header.lines = number f.value := by
  rw [FieldBlock.lines_eq]
  unfold Countable
  cases hnumber : number f.value with
  | none => exact asInt_none.symm
  | some z =>
    dsimp only
    rw [asInt_some]
    constructor
    · rintro ⟨hlow, hhigh, helse⟩
      by_cases hspelled : name.bytes <+: line
      · have hgives : GivesNumber name.bytes line z := by
          obtain ⟨-, -, -, hgoes, -⟩ := hfirst
          refine ⟨hspelled, hgoes.2, ?_⟩
          rw [hvalue]
          exact (parseInt_value f.content f.trimmed z).mpr ⟨hnumber, hlow, hhigh⟩
        exact ⟨line, hfirst.weaken (fun l ⟨_, hl⟩ => hl.goesOn) ⟨z, hgives⟩, hgives⟩
      · exact helse hspelled
    · rintro ⟨l, hl, hgives⟩
      obtain ⟨hlow, hhigh⟩ := parseInt_range hgives.2.2
      exact ⟨hlow, hhigh, fun _ => ⟨l, hl, hgives⟩⟩

theorem hostAndPort_right (value : List UInt8) : HostRight (some value) (hostAndPort value) := by
  constructor
  · intro hcolon
    have hdrop : value.dropWhile (· ≠ COLON) = [] :=
      List.dropWhile_eq_nil_iff.mpr fun b hb => by
        simpa using fun he : b = COLON => hcolon (he ▸ hb)
    unfold hostAndPort
    rw [hdrop]
  · rintro host port rfl hcolon hdigits hfits
    have hhost : ∀ b ∈ host, decide (b ≠ COLON) = true := fun b hb => by
      simpa using fun he : b = COLON => hcolon (he ▸ hb)
    have hdrop : (host ++ COLON :: port).dropWhile (· ≠ COLON) = COLON :: port := by
      rw [List.dropWhile_append_of_pos hhost, List.dropWhile_cons_of_neg (by simp)]
    have htake : (host ++ COLON :: port).takeWhile (· ≠ COLON) = host := by
      rw [List.takeWhile_append_of_pos hhost, List.takeWhile_cons_of_neg (by simp),
        List.append_nil]
    unfold hostAndPort
    rw [hdrop, htake]
    dsimp only
    rw [parseInt_digits hdigits hfits]
    rfl

theorem value_iff :
    tryGetFieldValueCI name.bytes h.header.lines = (h.find name).map Field.value ↔
      match h.find name with
      | none => ∀ l ∈ h.contents, ¬ GoesOn name.bytes l
      | some f => ∃ line, Carries h name f line := by
  rw [FieldBlock.lines_eq]
  cases hfind : h.find name with
  | none => exact value_none
  | some f => exact value_some.trans (exists_congr fun line => (carries_iff hfind).symm)

theorem agree_of_lookups {item : HttpBinaryMapped} (held : Holds h.header.lines item)
    (hvalue : tryGetFieldValueCI name.bytes h.header.lines = (h.find name).map Field.value)
    (hint : tryGetFieldValueAsInt name.bytes h.header.lines =
      (h.find name).bind fun f => number f.value) : LookupsAgree h item name := by
  have hmapped : item.mappedLines item.fieldsCountMapped = h.header.lines := by
    rw [held.fieldsCountMapped, held.mappedLines]
  have hcount : item.mappedLines item.fieldsCount = h.header.lines := by
    rw [held.fieldsCount, held.mappedLines]
  refine ⟨by rwa [hmapped], by rwa [hcount], ?_, ?_⟩
  · intro hname hbody hchunked
    rw [hcount] at hbody
    rw [hmapped] at hchunked
    rw [held.getBodyLength, bodyLengthOf, do_of_ok hbody, hchunked, ← hname, hint]
    cases (h.find name).bind fun f => number f.value <;> rfl
  · intro hname
    unfold HttpBinaryMapped.findHostAndPortFromField
    rw [hmapped, ← hname, hvalue]
    cases (h.find name).map Field.value with
    | none => rfl
    | some value => exact hostAndPort_right value

/-- The lookups agree exactly when a line carries the value and the number in it is found. -/
theorem lookupsAgree_iff {item : HttpBinaryMapped} (held : Holds h.header.lines item) :
    LookupsAgree h item name ↔ Findable h name := by
  unfold Findable
  constructor
  · rintro ⟨hvalue, hint, -, -⟩
    rw [held.fieldsCountMapped, held.mappedLines, value_iff] at hvalue
    rw [held.fieldsCount, held.mappedLines] at hint
    cases hfind : h.find name with
    | none => rwa [hfind] at hvalue
    | some f =>
      rw [hfind] at hvalue hint
      obtain ⟨line, hcarries⟩ := hvalue
      obtain ⟨hfirst, hafter⟩ := (carries_iff hfind).mp hcarries
      exact ⟨line, hcarries, (countable_iff hfirst hafter).mpr hint⟩
  · intro hfindable
    cases hfind : h.find name with
    | none =>
      rw [hfind] at hfindable
      apply agree_of_lookups held (value_iff.mpr (by rwa [hfind]))
      rw [hfind, FieldBlock.lines_eq]
      exact asInt_none.mpr fun l hl z hgives => hfindable l hl hgives.goesOn
    | some f =>
      rw [hfind] at hfindable
      obtain ⟨line, hcarries, hcountable⟩ := hfindable
      obtain ⟨hfirst, hafter⟩ := (carries_iff hfind).mp hcarries
      refine agree_of_lookups held (value_iff.mpr ?_) ?_
      · rw [hfind]
        exact ⟨line, hcarries⟩
      · rw [hfind]
        exact (countable_iff hfirst hafter).mp hcountable

end Block

def HttpBinaryMapped.holding (type : MessageType) (ls : List (List UInt8)) : HttpBinaryMapped where
  type
  datas := ls.flatten ++ List.replicate (rentLength ls.flatten.length - ls.flatten.length) 0
  length := ls.flatten.length
  fieldsCount := ls.length
  fieldsCountMapped := ls.length
  maps := ranges 0 ls

theorem holds_holding (type : MessageType) {ls : List (List UInt8)}
    (hfits : ls.flatten.length ≤ arrayMaxLength) :
    Holds ls (HttpBinaryMapped.holding type ls) := by
  have hrent := le_rentLength ls.flatten.length
  have hlen : (HttpBinaryMapped.holding type ls).datas.length = rentLength ls.flatten.length := by
    simp only [HttpBinaryMapped.holding, List.length_append, List.length_replicate]
    omega
  refine ⟨⟨hrent.trans_eq hlen.symm, hlen.trans_le (rentLength_le hfits), ?_⟩, ?_, rfl, rfl, ?_⟩
  · rw [hlen]
    exact returnable_rentLength _
  · exact List.take_left' rfl
  · exact List.take_of_length_le (ranges_length 0 ls).le

/-- `POST / HTTP/1.1` with the length 5 in its only field. -/
def postBlock (name : FieldName) : FieldBlock where
  startLine := asciiBytes "POST / HTTP/1.1"
  isStartLine := .inl ⟨asciiBytes "POST", asciiBytes "/", asciiBytes "HTTP/1.1", by decide, by decide,
    by decide, ⟨0x31, 0x31, by decide, by decide, rfl⟩, rfl⟩
  fields := [{
    name
    before := [0x20]
    value := [0x35]
    after := []
    ows := by decide
    content := by decide
    trimmed := by
      rintro b (hb | hb)
      · cases hb
        decide
      · cases hb
        decide }]

def contentLengthName : FieldName := ⟨NAME_CONTENT_LENGTH, by decide⟩

theorem lookupsAgree_post : LookupsAgree (postBlock contentLengthName)
    (.holding .request (postBlock contentLengthName).header.lines) contentLengthName := by
  refine (lookupsAgree_iff (holds_holding .request (by decide))).mpr ?_
  have hquiet : ¬ GoesOn NAME_CONTENT_LENGTH (asciiBytes "POST / HTTP/1.1") := by decide
  refine ⟨_, ⟨⟨[asciiBytes "POST / HTTP/1.1"], [], rfl, by decide, ?_⟩, ?_⟩, ?_⟩
  · intro l hl
    cases List.mem_singleton.mp hl
    exact hquiet
  · rw [if_pos rfl]
    exact ⟨rfl, by decide, rfl⟩
  · exact ⟨by decide, by decide, fun hother => absurd (by decide) hother⟩

/-- Written in lower case the length is found as text and not as a number. -/
theorem not_lookupsAgree_lowerCase :
    Holds (postBlock ⟨asciiBytes "content-length", by decide⟩).header.lines
        (.holding .request (postBlock ⟨asciiBytes "content-length", by decide⟩).header.lines) ∧
      ¬ LookupsAgree (postBlock ⟨asciiBytes "content-length", by decide⟩)
        (.holding .request (postBlock ⟨asciiBytes "content-length", by decide⟩).header.lines)
        contentLengthName := by
  refine ⟨holds_holding .request (by decide), fun h => ?_⟩
  have hint := h.asInt
  revert hint
  decide

end DecodingProxy.Piped
