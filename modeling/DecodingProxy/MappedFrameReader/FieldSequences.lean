import DecodingProxy.MappedFrameReader.ImportEnds

/-!
# Field lists

A body is a list of fields with white space in between. The rounds of `ParseFields` are compared
with what the function of each field makes of its own text.

A typed field is always parsed as if it stood alone. A vector is taken with one character more than
it has. For a switch the whole body is searched, so that all of them are the first one. An item and
a switch need a white space somewhere behind their first character, and what stands in front of it
must not be the name of a type.
-/

namespace DecodingProxy.MappedFrameReader.TextImporter
open DecodingProxy.Fuel DecodingProxy.Runs DecodingProxy.Runtime SchemeText

/-! ### Rounds -/

/-- A round of `ParseFields`: the text it parses as a field, how much it consumes, and the nodes. -/
structure Round where
  text : Str
  length : ℕ
  nodes : Chain

/-- What the function of the kind takes as its field: up to the first comma, or the match. -/
def fieldText (input capture : Str) : FieldKind → Str
  | .typed _ | .vector =>
    ((Str.indexOf 0x2C capture).map fun index => capture.take (index + 1)).getD []
  | .item => ((regexItem capture).map (·.value)).getD []
  | .switch => ((regexSwitch input).map (·.value)).getD []
  | .unknown => []

def fieldRound (env : TextEnvironment) (parseBody : ParseBody) (input capture : Str)
    (s : SchemeImporter) : Except Halt (Round × SchemeImporter) := do
  let kind ← (fieldKind env capture s).mapError .threw
  let field ← parseField env parseBody input capture s
  .ok (⟨fieldText input capture kind, field.1, field.2.1⟩, field.2.2)

/-- The loop of `ParseFields` with its rounds. -/
def fieldRounds (env : TextEnvironment) : ℕ → (input capture : Str) → SchemeImporter →
    Except Halt (List Round × SchemeImporter)
  | 0, _, _, _ => .error .diverges
  | fuel + 1, input, capture, s =>
    let capture := Str.trimStart capture
    if capture = [] then .ok ([], s)
    else do
      let (round, s) ← fieldRound env (bodyAt env fuel) input capture s
      let capture ← (Str.substring round.length capture).mapError .threw
      let rest ← fieldRounds env fuel input capture s
      .ok (round :: rest.1, rest.2)

def nodesOf (rounds : List Round) : Chain :=
  rounds.foldr (fun round rest => round.nodes.append rest) .null

theorem parseFields_eq_rounds (env : TextEnvironment) (fuel : ℕ) (input capture : Str)
    (s : SchemeImporter) :
    parseFields env fuel input capture s =
      (fieldRounds env fuel input capture s).map fun r => (nodesOf r.1, r.2) := by
  induction fuel generalizing capture s with
  | zero => rfl
  | succ fuel ih =>
    rw [parseFields, fieldRounds]
    split_ifs with hempty
    · rfl
    · unfold fieldRound
      change parseField env (bodyAt env fuel) input (Str.trimStart capture) s >>= _ = _
      cases hkind : fieldKind env (Str.trimStart capture) s with
      | error fault =>
        have hthrows : parseField env (bodyAt env fuel) input (Str.trimStart capture) s =
            .error (.threw fault) := by
          unfold parseField
          rw [hkind]
          rfl
        rw [hthrows]
        rfl
      | ok kind =>
        cases parseField env (bodyAt env fuel) input (Str.trimStart capture) s with
        | error halt => rfl
        | ok field =>
          change (Str.substring field.1 (Str.trimStart capture)).mapError Halt.threw >>= _ =
            Except.map _ ((Str.substring field.1 (Str.trimStart capture)).mapError Halt.threw >>= _)
          cases (Str.substring field.1 (Str.trimStart capture)) with
          | error fault => rfl
          | ok rest =>
            change parseFields env fuel input rest field.2.2 >>= _ =
              Except.map _ (fieldRounds env fuel input rest field.2.2 >>= _)
            rw [ih]
            cases fieldRounds env fuel input rest field.2.2 with
            | error halt => rfl
            | ok rounds => rfl

/-! ### Fields -/

/-- The text of a field, by the grammar: words up to a comma, or a keyword with a body up to the
brace that closes it. -/
inductive Field
  | typed (words : Str) (single : 0x2C ∉ words) (trimmed : Str.trimStart words = words)
      (white : words.any Str.isWhiteSpace)
  | vector (words : Str) (single : 0x2C ∉ words)
  | item (head body : Str) (opens : braceOpen ∉ head)
      (closes : closing 0 (body ++ [braceClose]) = some body.length)
  | switch (c : UInt16) (head body : Str) (plain : Str.isPlain c) (opens : braceOpen ∉ c :: head)
      (closes : closing 0 (body ++ [braceClose]) = some body.length)

def braced (keyword head body : Str) : Str := keyword ++ head ++ braceOpen :: (body ++ [braceClose])

def Field.text : Field → Str
  | .typed words _ _ _ => words ++ [0x2C]
  | .vector words _ => ascii "vector" ++ words ++ [0x2C]
  | .item head body _ _ => braced (ascii "Item:") head body
  | .switch c head body _ _ _ => braced (ascii "Switch") (c :: head) body

/-- What the function of the field makes of its own text. -/
def Field.parseAlone (env : TextEnvironment) (parseBody : ParseBody) (field : Field)
    (s : SchemeImporter) : Except Halt (ℕ × Built) :=
  match field with
  | .typed .. => do
    match ← (startWithTypeName field.text s).mapError .threw with
    | some type =>
      let (length, nodes, s) ← (parseFieldTyped env field.text type s).mapError .threw
      .ok (length, .ofNodes nodes .null, s)
    | none => .error (.threw (.raised .notImplemented))
  | .vector .. => do
    let (length, nodes, s) ← (parseVector env field.text s).mapError .threw
    .ok (length, .ofNodes nodes .null, s)
  | .item .. => parseItem parseBody field.text s
  | .switch .. => parseSwitch env parseBody field.text s

/-- White space behind a field. -/
abbrev Gap := { s : Str // s.all Str.isWhiteSpace }

def textOf (fields : List (Field × Gap)) : Str :=
  fields.flatMap fun placed => placed.1.text ++ placed.2.1

/-- The rounds there are to be: each field as it is parsed alone, in the tables that those in front
of it leave. -/
def eachAlone (env : TextEnvironment) (fuel : ℕ) : List (Field × Gap) → SchemeImporter →
    Except Halt (List Round × SchemeImporter)
  | [], s => .ok ([], s)
  | placed :: fields, s => do
    let alone ← placed.1.parseAlone env (bodyAt env fuel) s
    let rest ← eachAlone env fuel fields alone.2.2
    .ok (⟨placed.1.text, placed.1.text.length, alone.2.1⟩ :: rest.1, rest.2)

/-- The field is found in front of `behind` as it stands there. -/
def Field.Found (input behind : Str) (s : SchemeImporter) (field : Field) : Prop :=
  match field with
  | .typed .. => True
  | .vector .. => False
  | .item .. => startWithTypeName (field.text ++ behind) s = .ok none
  | .switch .. => startWithTypeName (field.text ++ behind) s = .ok none ∧
      (regexSwitch input).map (·.value) = some field.text

/-- Every field is, in the tables that those in front of it leave. -/
def AllFound (env : TextEnvironment) (input : Str) : List (Field × Gap) → SchemeImporter → Prop
  | [], _ => True
  | placed :: fields, s =>
    placed.1.Found input (placed.2.1 ++ textOf fields) s ∧
      ∀ alone, Returns (fun fuel => placed.1.parseAlone env (bodyAt env fuel) s) alone →
        AllFound env input fields alone.2.2

/-! ### Texts -/

section Texts

variable {keyword head body behind : Str} {isHead : UInt16 → Bool}

theorem closing_append {depth i : ℕ} {s : Str} (h : closing depth s = some i) (t : Str) :
    closing depth (s ++ t) = some i := by
  induction s generalizing depth i with
  | nil => cases h
  | cons c s ih =>
    rw [List.cons_append]
    unfold closing at h ⊢
    split_ifs at h ⊢
    · cases depth with
      | zero => exact h
      | succ depth =>
        obtain ⟨j, hj, rfl⟩ := Option.map_eq_some_iff.mp h
        exact congrArg (Option.map (· + 1)) (ih hj)
    · obtain ⟨j, hj, rfl⟩ := Option.map_eq_some_iff.mp h
      exact congrArg (Option.map (· + 1)) (ih hj)
    · obtain ⟨j, hj, rfl⟩ := Option.map_eq_some_iff.mp h
      exact congrArg (Option.map (· + 1)) (ih hj)

variable (keyword) in
theorem bracedAt_braced (hhead : ∀ c ∈ head, isHead c) (hopen : isHead braceOpen = false)
    (hcloses : closing 0 (body ++ [braceClose]) = some body.length) (behind : Str) :
    bracedAt keyword isHead (braced keyword head body ++ behind) =
      some ⟨braced keyword head body, head, body⟩ := by
  have hparts : braced keyword head body ++ behind =
      keyword ++ (head ++ braceOpen :: (body ++ braceClose :: behind)) := by
    simp only [braced, List.append_assoc, List.cons_append, List.nil_append]
  have hlength : (braced keyword head body).length =
      keyword.length + head.length + body.length + 2 := by
    simp only [braced, List.length_append, List.length_cons, List.length_nil]
    omega
  have htake : (head ++ braceOpen :: (body ++ braceClose :: behind)).takeWhile isHead = head := by
    rw [List.takeWhile_append_of_pos hhead, List.takeWhile_cons_of_neg (by rw [hopen]; decide),
      List.append_nil]
  have hdrop : (head ++ braceOpen :: (body ++ braceClose :: behind)).dropWhile isHead =
      braceOpen :: (body ++ braceClose :: behind) := by
    rw [List.dropWhile_append_of_pos hhead, List.dropWhile_cons_of_neg (by rw [hopen]; decide)]
  have hbody : bodyLength (body ++ braceClose :: behind) = some body.length := by
    have happend := closing_append hcloses behind
    rw [List.append_assoc, List.singleton_append] at happend
    unfold bodyLength
    rw [happend, Option.some_or]
  unfold bracedAt
  rw [hparts, if_pos (List.isPrefixOf_iff_prefix.mpr (List.prefix_append _ _)), List.drop_left]
  simp only [htake, hdrop, if_true, hbody, Option.map_some]
  rw [← hparts, show keyword.length + head.length + body.length + 2 = _ from hlength.symm,
    List.take_left, List.take_left]

theorem firstMatch_of_some {α : Type*} {matchAt : Str → Option α} {a : α} {s : Str}
    (h : matchAt s = some a) : firstMatch matchAt s = some a := by
  cases s with
  | nil => exact h
  | cons c s =>
    rw [firstMatch, h, Option.some_or]

/-- The groups of a match are parts of its text. -/
theorem bracedAt_groups {m : Braced} {s : Str} (hopen : isHead braceOpen = false)
    (h : bracedAt keyword isHead s = some m) :
    m.head = (m.value.drop keyword.length).takeWhile isHead ∧
      m.body = (m.value.drop (keyword.length + m.head.length + 1)).dropLast := by
  unfold bracedAt at h
  split_ifs at h with hkeyword
  obtain ⟨behind, rfl⟩ := List.isPrefixOf_iff_prefix.mp hkeyword
  rw [List.drop_left] at h
  have hsplit := List.takeWhile_append_dropWhile (p := isHead) (l := behind)
  simp only at h
  split at h
  · cases h
  · rename_i c inside hinside
    split_ifs at h with hbrace
    obtain ⟨n, hn, rfl⟩ := Option.map_eq_some_iff.mp h
    have hlt := bodyLength_lt hn
    rw [hinside, hbrace] at hsplit
    have hall : ∀ c ∈ behind.takeWhile isHead, isHead c := fun c => List.mem_takeWhile_imp
    generalize behind.takeWhile isHead = head at hsplit hall ⊢
    have hvalue : (keyword ++ behind).take (keyword.length + head.length + n + 2) =
        keyword ++ (head ++ braceOpen :: inside.take (n + 1)) := by
      rw [← hsplit, show keyword.length + head.length + n + 2 =
        keyword.length + (head.length + (n + 1 + 1)) by omega, List.take_length_add_append,
        List.take_length_add_append, List.take_succ_cons]
    have hinner : (inside.take (n + 1)).dropLast = inside.take n := by
      rw [List.dropLast_eq_take, List.length_take, Nat.min_eq_left hlt, Nat.succ_sub_one,
        List.take_take, Nat.min_eq_left (Nat.le_succ n)]
    simp only [hvalue]
    constructor
    · rw [List.drop_left, List.takeWhile_append_of_pos hall,
        List.takeWhile_cons_of_neg (by rw [hopen]; decide), List.append_nil]
    · rw [Nat.add_assoc, List.drop_length_add_append, List.drop_length_add_append,
        List.drop_succ_cons, List.drop_zero, hinner]

/-- Two matches of one text are the same. -/
theorem bracedAt_ext {m m' : Braced} {s s' : Str} (hopen : isHead braceOpen = false)
    (h : bracedAt keyword isHead s = some m) (h' : bracedAt keyword isHead s' = some m')
    (hvalue : m.value = m'.value) : m = m' := by
  obtain ⟨hhead, hbody⟩ := bracedAt_groups hopen h
  obtain ⟨hhead', hbody'⟩ := bracedAt_groups hopen h'
  have hsame : m.head = m'.head := by
    rw [hhead, hhead', hvalue]
  have hsameBody : m.body = m'.body := by
    rw [hbody, hbody', hvalue, hsame]
  cases m
  cases m'
  cases hvalue
  cases hsame
  cases hsameBody
  rfl

theorem trimStart_gap (gap : Gap) {c : UInt16} (hc : Str.isWhiteSpace c = false) (s : Str) :
    Str.trimStart (gap.1 ++ c :: s) = c :: s := by
  have hgap : ∀ c ∈ gap.1, Str.isWhiteSpace c := List.all_eq_true.mp gap.2
  unfold Str.trimStart Str.trimStartOf
  rw [List.dropWhile_append_of_pos hgap, List.dropWhile_cons_of_neg (by rw [hc]; decide)]

theorem trimStart_gap_nil (gap : Gap) : Str.trimStart gap.1 = [] :=
  List.dropWhile_eq_nil_iff.mpr (List.all_eq_true.mp gap.2)

theorem indexOf_comma {words : Str} (single : 0x2C ∉ words) (behind : Str) :
    Str.indexOf 0x2C (words ++ 0x2C :: behind) = some words.length := by
  have hnone : words.findIdx? (· = 0x2C) = none := by
    apply List.findIdx?_eq_none_iff.mpr
    intro c hc
    exact decide_eq_false fun heq => single (heq ▸ hc)
  unfold Str.indexOf
  rw [List.findIdx?_append, hnone, Option.none_or, List.findIdx?_cons]
  simp only [decide_true, if_true, Option.map_some, Nat.zero_add]

theorem not_white_of_trimmed {c : UInt16} {words : Str}
    (trimmed : Str.trimStart (c :: words) = c :: words) : Str.isWhiteSpace c = false := by
  apply Bool.eq_false_of_not_eq_true
  intro hc
  unfold Str.trimStart Str.trimStartOf at trimmed
  rw [List.dropWhile_cons_of_pos hc] at trimmed
  have hlonger := (List.dropWhile_suffix (l := words) Str.isWhiteSpace).length_le
  rw [trimmed] at hlonger
  exact absurd hlonger (Nat.not_succ_le_self _)

end Texts

/-! ### One field -/

section OneField

variable {env : TextEnvironment} {s t : SchemeImporter} {field : Field} {input behind : Str}

theorem Field.text_cons (field : Field) :
    ∃ c rest, field.text = c :: rest ∧ Str.isWhiteSpace c = false := by
  cases field with
  | typed words single trimmed white =>
    cases words with
    | nil => cases white
    | cons c words => exact ⟨c, words ++ [0x2C], rfl, not_white_of_trimmed trimmed⟩
  | vector words single => exact ⟨0x76, _, rfl, rfl⟩
  | item head body opens closes => exact ⟨0x49, _, rfl, rfl⟩
  | switch c head body plain opens closes => exact ⟨0x53, _, rfl, rfl⟩

theorem beforeComma_text {words : Str} (single : 0x2C ∉ words) (behind : Str) :
    beforeComma (words ++ 0x2C :: behind) = .ok (words.length, words) := by
  unfold beforeComma
  rw [indexOf_comma single]
  simp only [List.take_left]

theorem startWithTypeName_text {words : Str} (trimmed : Str.trimStart words = words)
    (white : words.any Str.isWhiteSpace) (behind : Str) :
    startWithTypeName (words ++ behind) s = startWithTypeName words s := by
  have hbehind : Str.trimStart (words ++ behind) = words ++ behind := by
    cases words with
    | nil => cases white
    | cons c words => exact trimStart_gap ⟨[], rfl⟩ (not_white_of_trimmed trimmed) _
  obtain ⟨index, hindex⟩ : ∃ index, words.findIdx? Str.isWhiteSpace = some index := by
    apply Option.isSome_iff_exists.mp
    rw [List.findIdx?_isSome]
    exact white
  obtain ⟨hlt, -⟩ := List.findIdx?_eq_some_iff_getElem.mp hindex
  unfold startWithTypeName
  rw [hbehind, trimmed]
  simp only [List.findIdx?_append, hindex, Option.some_or, List.take_append_of_le_length hlt.le]

theorem parseFieldTyped_text {words : Str} (single : 0x2C ∉ words) (behind : Str)
    (type : DefinedType) :
    parseFieldTyped env (words ++ 0x2C :: behind) type s =
      parseFieldTyped env (words ++ [0x2C]) type s := by
  unfold parseFieldTyped
  rw [beforeComma_text single, beforeComma_text single]

theorem parseVector_length {input : Str} {nodes : List Node} {n : ℕ}
    (h : parseVector env input s = .ok (n, nodes, t)) :
    ∃ index, Str.indexOf 0x2C input = some index ∧ n = index + 1 ∧
      ∃ path mode rest, nodes = .repeat path mode :: rest := by
  obtain ⟨before, hbefore, h⟩ := do_ok_iff.mp h
  obtain ⟨capture, -, h⟩ := do_ok_iff.mp h
  obtain ⟨words, -, h⟩ := do_ok_iff.mp h
  obtain ⟨typeName, -, h⟩ := do_ok_iff.mp h
  obtain ⟨fieldControl, -, h⟩ := do_ok_iff.mp h
  obtain ⟨type, -, h⟩ := do_ok_iff.mp h
  obtain ⟨u, -, h⟩ := do_ok_iff.mp h
  obtain ⟨lengthControl, -, h⟩ := do_ok_iff.mp h
  obtain ⟨attributes, -, h⟩ := do_ok_iff.mp h
  obtain ⟨valid, -, h⟩ := do_ok_iff.mp h
  obtain ⟨links, -, h⟩ := do_ok_iff.mp h
  obtain ⟨v, -, h⟩ := do_ok_iff.mp h
  obtain ⟨mode, -, h⟩ := do_ok_iff.mp h
  cases h
  exact ⟨before.1, beforeComma_index hbefore, rfl, _, _, _, rfl⟩

theorem ne_of_mem_head {head : Str} (opens : braceOpen ∉ head) {c : UInt16} (hc : c ∈ head) :
    decide (c ≠ braceOpen) = true :=
  decide_eq_true fun heq => opens (heq ▸ hc)

theorem regexItem_text {head body : Str} (opens : braceOpen ∉ head)
    (closes : closing 0 (body ++ [braceClose]) = some body.length) (behind : Str) :
    regexItem (braced (ascii "Item:") head body ++ behind) =
      some ⟨braced (ascii "Item:") head body, head, body⟩ :=
  firstMatch_of_some (bracedAt_braced _ (fun _ => ne_of_mem_head opens) rfl closes behind)

theorem regexSwitch_text {head body : Str} (opens : braceOpen ∉ head)
    (closes : closing 0 (body ++ [braceClose]) = some body.length) (behind : Str) :
    regexSwitch (braced (ascii "Switch") head body ++ behind) =
      some ⟨braced (ascii "Switch") head body, head, body⟩ :=
  firstMatch_of_some (bracedAt_braced _ (fun _ => ne_of_mem_head opens) rfl closes behind)

theorem fieldKind_typed {capture : Str} {type : DefinedType}
    (h : startWithTypeName capture s = .ok (some type)) :
    fieldKind env capture s = .ok (.typed type) := by
  unfold fieldKind
  rw [h]
  rfl

theorem fieldKind_vector {rest : Str}
    (h : startWithTypeName (ascii "vector" ++ rest) s = .ok none) :
    fieldKind env (ascii "vector" ++ rest) s = .ok .vector ∨
      fieldKind env (ascii "vector" ++ rest) s = .ok .unknown := by
  have hitem : env.startsWith (ascii "vector" ++ rest) (ascii "Item") = false :=
    env.not_startsWith 0x76 0x49 _ _ rfl rfl (by decide)
  have hswitch : env.startsWith (ascii "vector" ++ rest) (ascii "Switch") = false :=
    env.not_startsWith 0x76 0x53 _ _ rfl rfl (by decide)
  unfold fieldKind
  rw [h, hitem, hswitch]
  cases env.startsWith (ascii "vector" ++ rest) (ascii "vector") with
  | true => exact .inl rfl
  | false => exact .inr rfl

theorem fieldKind_item {rest : Str} (h : startWithTypeName (ascii "Item:" ++ rest) s = .ok none) :
    fieldKind env (ascii "Item:" ++ rest) s = .ok .item := by
  have hvector : env.startsWith (ascii "Item:" ++ rest) (ascii "vector") = false :=
    env.not_startsWith 0x49 0x76 _ _ rfl rfl (by decide)
  have hitem : env.startsWith (ascii "Item:" ++ rest) (ascii "Item") = true :=
    env.startsWith_word (ascii "Item") 0x3A rest (by decide) (by decide)
  unfold fieldKind
  rw [h, hvector, hitem]
  rfl

theorem fieldKind_switch {c : UInt16} {rest : Str} (plain : Str.isPlain c)
    (h : startWithTypeName (ascii "Switch" ++ c :: rest) s = .ok none) :
    fieldKind env (ascii "Switch" ++ c :: rest) s = .ok .switch := by
  have hvector : env.startsWith (ascii "Switch" ++ c :: rest) (ascii "vector") = false :=
    env.not_startsWith 0x53 0x76 _ _ rfl rfl (by decide)
  have hitem : env.startsWith (ascii "Switch" ++ c :: rest) (ascii "Item") = false :=
    env.not_startsWith 0x53 0x49 _ _ rfl rfl (by decide)
  have hswitch : env.startsWith (ascii "Switch" ++ c :: rest) (ascii "Switch") = true :=
    env.startsWith_word (ascii "Switch") c rest (by decide) plain
  unfold fieldKind
  rw [h, hvector, hitem, hswitch]
  rfl

theorem fieldRound_ok_iff {parseBody : ParseBody} {capture : Str} {round : Round} :
    fieldRound env parseBody input capture s = .ok (round, t) ↔
      ∃ kind, fieldKind env capture s = .ok kind ∧
        parseField env parseBody input capture s = .ok (round.length, round.nodes, t) ∧
        fieldText input capture kind = round.text := by
  constructor
  · intro h
    obtain ⟨kind, hkind, h⟩ := do_ok_iff.mp h
    obtain ⟨field, hfield, h⟩ := do_ok_iff.mp h
    cases h
    exact ⟨kind, mapError_ok_iff.mp hkind, hfield, rfl⟩
  · intro ⟨kind, hkind, hfield, htext⟩
    unfold fieldRound
    rw [do_of_ok (mapError_ok_iff.mpr hkind), do_of_ok hfield, htext]

/-- Where the code takes the field for a typed one. -/
theorem parseField_typed {parseBody : ParseBody} {capture : Str} {type : DefinedType}
    (hkind : fieldKind env capture s = .ok (.typed type)) {n : ℕ} {nodes : Chain} :
    parseField env parseBody input capture s = .ok (n, nodes, t) ↔
      ∃ typed, parseFieldTyped env capture type s = .ok (n, typed, t) ∧
        nodes = .ofNodes typed .null := by
  unfold parseField
  rw [hkind]
  change (parseFieldTyped env capture type s).mapError Halt.threw >>= _ = _ ↔ _
  constructor
  · intro h
    obtain ⟨field, hfield, h⟩ := do_ok_iff.mp h
    cases h
    exact ⟨_, mapError_ok_iff.mp hfield, rfl⟩
  · intro ⟨typed, hfield, hnodes⟩
    rw [do_of_ok (mapError_ok_iff.mpr hfield), hnodes]

theorem fieldText_last {capture : Str} {type : DefinedType} {index : ℕ}
    (h : Str.indexOf 0x2C capture = some index) :
    (fieldText input capture (.typed type)).getLast? = some 0x2C := by
  obtain ⟨hlt, hcomma, -⟩ := List.findIdx?_eq_some_iff_getElem.mp h
  unfold fieldText
  rw [h, Option.map_some, Option.getD_some, List.take_succ_eq_append_getElem hlt,
    List.getLast?_concat, of_decide_eq_true hcomma]

theorem braced_last (keyword head body : Str) :
    (braced keyword head body).getLast? = some braceClose := by
  unfold braced
  rw [← List.cons_append, ← List.append_assoc, List.getLast?_concat]

/-- A body is never taken for a typed field. -/
theorem not_typed {parseBody : ParseBody} {capture keyword head body : Str} {type : DefinedType}
    {n : ℕ} {nodes : Chain} (h : startWithTypeName capture s = .ok (some type)) :
    fieldRound env parseBody input capture s ≠ .ok (⟨braced keyword head body, n, nodes⟩, t) := by
  intro hround
  obtain ⟨kind, hkind, hfield, htext⟩ := fieldRound_ok_iff.mp hround
  cases (fieldKind_typed h).symm.trans hkind
  obtain ⟨typed, htyped, -⟩ := (parseField_typed hkind).mp hfield
  obtain ⟨index, hindex, -⟩ := parseFieldTyped_length htyped
  have hlast := (fieldText_last hindex).symm.trans
    ((congrArg List.getLast? htext).trans (braced_last keyword head body))
  exact absurd (Option.some.inj hlast) (by decide)

variable {n : ℕ} {nodes : Chain}

theorem typed_round {words : Str} {single : 0x2C ∉ words} {trimmed : Str.trimStart words = words}
    {white : words.any Str.isWhiteSpace} {parseBody parseBody' : ParseBody}
    (halone : (Field.typed words single trimmed white).parseAlone env parseBody s =
      .ok (n, nodes, t)) :
    fieldRound env parseBody' input ((Field.typed words single trimmed white).text ++ behind) s =
      .ok (⟨words ++ [0x2C], (words ++ [0x2C]).length, nodes⟩, t) := by
  obtain ⟨type?, htype, halone⟩ := do_ok_iff.mp halone
  have htype := mapError_ok_iff.mp htype
  cases type? with
  | none => cases halone
  | some type =>
    obtain ⟨field, hfield, halone⟩ := do_ok_iff.mp halone
    cases halone
    have hfield := mapError_ok_iff.mp hfield
    obtain ⟨index, hindex, hlength, -⟩ := parseFieldTyped_length hfield
    have htext : (Field.typed words single trimmed white).text ++ behind =
        words ++ 0x2C :: behind := by
      unfold Field.text
      rw [List.append_assoc, List.singleton_append]
    have hcomma : index = words.length :=
      Option.some.inj (hindex.symm.trans (indexOf_comma single []))
    have hkind : fieldKind env (words ++ 0x2C :: behind) s = .ok (.typed type) := by
      apply fieldKind_typed
      rw [startWithTypeName_text trimmed white, ← htype]
      exact (startWithTypeName_text trimmed white [0x2C]).symm
    rw [htext]
    apply fieldRound_ok_iff.mpr
    refine ⟨.typed type, hkind, (parseField_typed hkind).mpr ?_, ?_⟩
    · refine ⟨field.2.1, ?_, rfl⟩
      rw [parseFieldTyped_text single]
      refine hfield.trans (congrArg Except.ok ?_)
      rw [List.length_append, List.length_singleton, ← hcomma, ← hlength]
    · unfold fieldText
      rw [indexOf_comma single, Option.map_some, Option.getD_some, List.take_length_add_append]
      rfl

theorem not_comma_vector {words : Str} (single : 0x2C ∉ words) :
    0x2C ∉ ascii "vector" ++ words := by
  intro hmem
  rcases List.mem_append.mp hmem with hkeyword | hwords
  · exact absurd hkeyword (by decide)
  · exact single hwords

/-- A vector takes one more than it has. -/
theorem not_vector_round {words : Str} {single : 0x2C ∉ words} {parseBody parseBody' : ParseBody}
    (halone : (Field.vector words single).parseAlone env parseBody s = .ok (n, nodes, t))
    {u : SchemeImporter} {text : Str} :
    fieldRound env parseBody' input ((Field.vector words single).text ++ behind) s ≠
      .ok (⟨text, (Field.vector words single).text.length, nodes⟩, u) := by
  intro hround
  obtain ⟨alone, hvector, heq⟩ := do_ok_iff.mp halone
  cases heq
  obtain ⟨-, -, -, path, mode, rest, hnodes⟩ := parseVector_length (mapError_ok_iff.mp hvector)
  obtain ⟨kind, hkind, hfield, -⟩ := fieldRound_ok_iff.mp hround
  have htext : (Field.vector words single).text ++ behind =
      (ascii "vector" ++ words) ++ 0x2C :: behind := by
    unfold Field.text
    rw [List.append_assoc _ [0x2C], List.singleton_append]
  obtain ⟨type?, htype, -⟩ := map_ok_iff.mp hkind
  cases type? with
  | some type =>
    cases (fieldKind_typed htype).symm.trans hkind
    obtain ⟨typed, htyped, hsame⟩ := (parseField_typed hkind).mp hfield
    obtain ⟨-, -, -, path', rest', htypedNodes⟩ := parseFieldTyped_length htyped
    rw [hnodes, htypedNodes] at hsame
    cases hsame
  | none =>
    have hrest : (Field.vector words single).text ++ behind =
        ascii "vector" ++ (words ++ 0x2C :: behind) := by
      rw [htext, List.append_assoc]
    rw [hrest] at htype
    rw [htext] at hfield
    rcases fieldKind_vector htype with hkind | hkind
    · rw [← hrest, htext] at hkind
      unfold parseField at hfield
      rw [hkind] at hfield
      change (parseVector env (ascii "vector" ++ words ++ 0x2C :: behind) s).mapError
        Halt.threw >>= _ = _ at hfield
      obtain ⟨taken, htaken, heq⟩ := do_ok_iff.mp hfield
      obtain ⟨index, hindex, hlength, -⟩ := parseVector_length (mapError_ok_iff.mp htaken)
      have hcomma := (indexOf_comma (not_comma_vector single) behind).symm.trans hindex
      have hone : taken.1 + 1 = (Field.vector words single).text.length :=
        congrArg Prod.fst (Except.ok.inj heq)
      unfold Field.text at hone
      rw [List.length_append, Option.some.inj hcomma, hlength] at hone
      exact absurd hone (Nat.succ_ne_self _)
    · rw [← hrest, htext] at hkind
      unfold parseField at hfield
      rw [hkind] at hfield
      cases hfield

theorem item_round {head body : Str} {opens : braceOpen ∉ head}
    {closes : closing 0 (body ++ [braceClose]) = some body.length} {parseBody : ParseBody}
    (hname : startWithTypeName ((Field.item head body opens closes).text ++ behind) s = .ok none)
    (halone : (Field.item head body opens closes).parseAlone env parseBody s = .ok (n, nodes, t)) :
    fieldRound env parseBody input ((Field.item head body opens closes).text ++ behind) s =
      .ok (⟨braced (ascii "Item:") head body, (braced (ascii "Item:") head body).length, nodes⟩,
        t) := by
  have hmatch := regexItem_text opens closes behind
  have hmatchAlone := regexItem_text opens closes []
  rw [List.append_nil] at hmatchAlone
  have hlength := parseItem_length hmatchAlone halone
  have hkind : fieldKind env (braced (ascii "Item:") head body ++ behind) s = .ok .item := by
    unfold Field.text braced at hname
    unfold braced
    rw [List.append_assoc, List.append_assoc] at hname ⊢
    exact fieldKind_item hname
  apply fieldRound_ok_iff.mpr
  refine ⟨.item, hkind, ?_, ?_⟩
  · change parseField env parseBody input (braced (ascii "Item:") head body ++ behind) s = _
    unfold parseField
    rw [hkind]
    change parseItem parseBody (braced (ascii "Item:") head body ++ behind) s = _
    change parseItem parseBody (braced (ascii "Item:") head body) s = _ at halone
    unfold parseItem at halone ⊢
    rw [hmatch]
    rw [hmatchAlone] at halone
    rw [halone, hlength]
  · change ((regexItem (braced (ascii "Item:") head body ++ behind)).map (·.value)).getD [] = _
    rw [hmatch]
    rfl

variable (env) in
theorem switch_kind {c : UInt16} {head body : Str} (plain : Str.isPlain c)
    (hname : startWithTypeName (braced (ascii "Switch") (c :: head) body ++ behind) s = .ok none) :
    fieldKind env (braced (ascii "Switch") (c :: head) body ++ behind) s = .ok .switch := by
  unfold braced at hname ⊢
  rw [List.append_assoc, List.append_assoc, List.cons_append] at hname ⊢
  exact fieldKind_switch plain hname

theorem switch_round {c : UInt16} {head body : Str} {plain : Str.isPlain c}
    {opens : braceOpen ∉ c :: head}
    {closes : closing 0 (body ++ [braceClose]) = some body.length} {parseBody : ParseBody}
    (hname : startWithTypeName ((Field.switch c head body plain opens closes).text ++ behind) s =
      .ok none)
    (hfirst : (regexSwitch input).map (·.value) =
      some (Field.switch c head body plain opens closes).text)
    (halone : (Field.switch c head body plain opens closes).parseAlone env parseBody s =
      .ok (n, nodes, t)) :
    fieldRound env parseBody input
        ((Field.switch c head body plain opens closes).text ++ behind) s =
      .ok (⟨braced (ascii "Switch") (c :: head) body,
        (braced (ascii "Switch") (c :: head) body).length, nodes⟩, t) := by
  have hmatchAlone := regexSwitch_text opens closes []
  rw [List.append_nil] at hmatchAlone
  have hmatch : regexSwitch input =
      some ⟨braced (ascii "Switch") (c :: head) body, c :: head, body⟩ := by
    obtain ⟨m, hm, hvalue⟩ := Option.map_eq_some_iff.mp hfirst
    obtain ⟨u, -, hu⟩ := firstMatch_some hm
    have hself := bracedAt_braced (ascii "Switch") (fun _ => ne_of_mem_head opens) rfl closes []
    rw [hm, bracedAt_ext rfl hu hself hvalue]
  have hlength := parseSwitch_length hmatchAlone halone
  have hkind := switch_kind env plain hname
  apply fieldRound_ok_iff.mpr
  refine ⟨.switch, hkind, ?_, ?_⟩
  · change parseField env parseBody input (braced (ascii "Switch") (c :: head) body ++ behind) s = _
    unfold parseField
    rw [hkind]
    change parseSwitch env parseBody input s = _
    change parseSwitch env parseBody (braced (ascii "Switch") (c :: head) body) s = _ at halone
    unfold parseSwitch at halone ⊢
    rw [hmatch]
    rw [hmatchAlone] at halone
    rw [halone, hlength]
  · change ((regexSwitch input).map (·.value)).getD [] = _
    rw [hmatch]
    rfl

theorem round_of_found {parseBody : ParseBody}
    (halone : field.parseAlone env parseBody s = .ok (n, nodes, t))
    (h : field.Found input behind s) :
    fieldRound env parseBody input (field.text ++ behind) s =
      .ok (⟨field.text, field.text.length, nodes⟩, t) := by
  cases field with
  | typed words single trimmed white => exact typed_round halone
  | vector words single => exact h.elim
  | item head body opens closes => exact item_round h halone
  | switch c head body plain opens closes => exact switch_round h.1 h.2 halone

/-- A round that takes a field for what it is has found it. -/
theorem found_of_round {parseBody parseBody' : ParseBody} {u : SchemeImporter}
    (halone : field.parseAlone env parseBody s = .ok (n, nodes, t))
    (hround : fieldRound env parseBody' input (field.text ++ behind) s =
      .ok (⟨field.text, field.text.length, nodes⟩, u)) :
    field.Found input behind s := by
  obtain ⟨kind, hkind, -, htext⟩ := fieldRound_ok_iff.mp hround
  obtain ⟨type?, htype, -⟩ := map_ok_iff.mp hkind
  cases field with
  | typed words single trimmed white => trivial
  | vector words single => exact absurd hround (not_vector_round halone)
  | item head body opens closes =>
    cases type? with
    | some type => exact absurd hround (not_typed htype)
    | none => exact htype
  | switch c head body plain opens closes =>
    cases type? with
    | some type => exact absurd hround (not_typed htype)
    | none =>
      refine ⟨htype, ?_⟩
      cases (switch_kind env plain htype).symm.trans hkind
      change ((regexSwitch input).map (·.value)).getD [] = _ at htext
      cases hfirst : (regexSwitch input).map (·.value) with
      | none =>
        rw [hfirst] at htext
        cases htext
      | some value =>
        rw [hfirst] at htext
        exact congrArg some htext

end OneField

/-! ### All fields -/

section AllFields

variable {env : TextEnvironment} {s t : SchemeImporter} {input : Str}

theorem parseAlone_increasing (env : TextEnvironment) (field : Field) (s : SchemeImporter) :
    Increasing Halt.diverges fun fuel => field.parseAlone env (bodyAt env fuel) s := by
  cases field with
  | typed words single trimmed white | vector words single => exact fun _ => .refl _
  | item head body opens closes => exact parseItem_increasing env _ s
  | switch c head body plain opens closes =>
    exact fun fuel => parseSwitch_below (fun body s => bodyAt_increasing env body s fuel) _ s

theorem fieldRound_increasing (env : TextEnvironment) (input capture : Str) (s : SchemeImporter) :
    Increasing Halt.diverges fun fuel => fieldRound env (bodyAt env fuel) input capture s := by
  intro fuel
  apply (Below.refl _).bind
  intro kind
  exact (parseField_increasing env input capture s fuel).bind fun field => .refl _

theorem fieldRounds_increasing (env : TextEnvironment) (input capture : Str)
    (s : SchemeImporter) :
    Increasing Halt.diverges fun fuel => fieldRounds env fuel input capture s := by
  intro fuel
  induction fuel generalizing capture s with
  | zero => exact .inl rfl
  | succ fuel ih =>
    beta_reduce
    rw [fieldRounds, fieldRounds]
    split_ifs
    · exact .refl _
    · apply (fieldRound_increasing env input _ s fuel).bind
      intro round
      exact (Below.refl _).bind fun rest => (ih _ _).bind fun rounds => .refl _

/-- The loop on a field behind a gap. -/
theorem fieldRounds_cons (lead : Gap) (field : Field) (behind : Str)
    {r : List Round × SchemeImporter} :
    Returns (fun fuel => fieldRounds env fuel input (lead.1 ++ (field.text ++ behind)) s) r ↔
      ∃ round, Returns
          (fun fuel => fieldRound env (bodyAt env fuel) input (field.text ++ behind) s) round ∧
        ∃ rest, Str.substring round.1.length (field.text ++ behind) = .ok rest ∧
          ∃ rounds, Returns (fun fuel => fieldRounds env fuel input rest round.2) rounds ∧
            (round.1 :: rounds.1, rounds.2) = r := by
  obtain ⟨c, more, htext, hwhite⟩ := field.text_cons
  have htrimmed : Str.trimStart (lead.1 ++ (field.text ++ behind)) = field.text ++ behind := by
    rw [htext]
    exact trimStart_gap lead hwhite _
  have hne : field.text ++ behind ≠ [] := by
    rw [htext]
    exact nofun
  constructor
  · intro ⟨fuel, h⟩
    beta_reduce at h
    cases fuel with
    | zero => cases h
    | succ fuel =>
      rw [fieldRounds, htrimmed, if_neg hne] at h
      obtain ⟨round, hround, h⟩ := do_ok_iff.mp h
      obtain ⟨rest, hrest, h⟩ := do_ok_iff.mp h
      obtain ⟨rounds, hrounds, h⟩ := do_ok_iff.mp h
      exact ⟨round, ⟨fuel, hround⟩, rest, mapError_ok_iff.mp hrest, rounds, ⟨fuel, hrounds⟩,
        Except.ok.inj h⟩
  · intro ⟨round, ⟨n, hround⟩, rest, hrest, rounds, ⟨m, hrounds⟩, hr⟩
    refine ⟨max n m + 1, ?_⟩
    beta_reduce
    rw [fieldRounds, htrimmed, if_neg hne,
      do_of_ok ((fieldRound_increasing env input _ s).ok_of_le (Nat.le_max_left n m) hround)]
    change (Str.substring round.1.length (field.text ++ behind)).mapError Halt.threw >>= _ = _
    rw [do_of_ok (mapError_ok_iff.mpr hrest), do_of_ok
      ((fieldRounds_increasing env input rest round.2).ok_of_le (Nat.le_max_right n m) hrounds), hr]

theorem substring_append (s behind : Str) : Str.substring s.length (s ++ behind) = .ok behind := by
  unfold Str.substring
  rw [if_neg (by rw [List.length_append]; omega), List.drop_left]

theorem fieldRounds_iff (lead : Gap) (fields : List (Field × Gap))
    {r : List Round × SchemeImporter}
    (halone : Returns (fun fuel => eachAlone env fuel fields s) r) :
    Returns (fun fuel => fieldRounds env fuel input (lead.1 ++ textOf fields) s) r ↔
      AllFound env input fields s := by
  induction fields generalizing lead s r with
  | nil =>
    cases returns_const.mp halone
    refine iff_of_true ⟨1, ?_⟩ trivial
    beta_reduce
    rw [fieldRounds, textOf, List.flatMap_nil, List.append_nil, trimStart_gap_nil, if_pos rfl]
  | cons placed fields ih =>
    obtain ⟨field, gap⟩ := placed
    have htext : textOf ((field, gap) :: fields) = field.text ++ (gap.1 ++ textOf fields) := by
      rw [textOf, List.flatMap_cons, List.append_assoc]
      rfl
    obtain ⟨fuel, halone⟩ := halone
    obtain ⟨⟨n, nodes, t⟩, hfirst, halone⟩ := do_ok_iff.mp halone
    obtain ⟨rest, hrest, halone⟩ := do_ok_iff.mp halone
    cases halone
    have hround : field.Found input (gap.1 ++ textOf fields) s → _ :=
      fun h => round_of_found hfirst h
    have hsame : ∀ alone, Returns (fun fuel => field.parseAlone env (bodyAt env fuel) s) alone →
        (n, nodes, t) = alone :=
      fun alone h => Returns.unique (parseAlone_increasing env field s) ⟨fuel, hfirst⟩ h
    rw [htext, fieldRounds_cons]
    constructor
    · intro ⟨(first, u), ⟨m, hm⟩, behind, hbehind, (laterRounds, v), hrounds, heq⟩
      obtain ⟨hcons, rfl⟩ := Prod.mk.inj heq
      obtain ⟨rfl, rfl⟩ := List.cons.inj hcons
      have hfound := found_of_round hfirst hm
      have hstate := Returns.unique (fieldRound_increasing env input _ s) ⟨m, hm⟩
        ⟨fuel, hround hfound⟩
      cases (Prod.mk.inj hstate).2
      cases (substring_append field.text (gap.1 ++ textOf fields)).symm.trans hbehind
      refine ⟨hfound, ?_⟩
      intro alone h
      rw [← hsame alone h]
      exact (ih gap ⟨fuel, hrest⟩).mp hrounds
    · intro ⟨hfound, hlater⟩
      refine ⟨_, ⟨fuel, hround hfound⟩, gap.1 ++ textOf fields, substring_append _ _, rest, ?_, rfl⟩
      exact (ih gap ⟨fuel, hrest⟩).mpr (hlater _ ⟨fuel, hfirst⟩)

def bodyOf (lead : Gap) (fields : List (Field × Gap)) : Str := lead.1 ++ textOf fields

/-- `ParseFields` takes the fields of the body one after the other for what they are alone: its
rounds are theirs, each with its own text, length and nodes, and it makes these nodes. -/
def OneAfterAnother (env : TextEnvironment) (lead : Gap) (fields : List (Field × Gap))
    (s : SchemeImporter) (r : List Round × SchemeImporter) : Prop :=
  Returns (fun fuel => fieldRounds env fuel (bodyOf lead fields) (bodyOf lead fields) s) r ∧
    Returns (fun fuel => parseFields env fuel (bodyOf lead fields) (bodyOf lead fields) s)
      (nodesOf r.1, r.2)

theorem oneAfterAnother_iff (env : TextEnvironment) (lead : Gap) (fields : List (Field × Gap))
    (s : SchemeImporter) {r : List Round × SchemeImporter}
    (halone : Returns (fun fuel => eachAlone env fuel fields s) r) :
    OneAfterAnother env lead fields s r ↔ AllFound env (bodyOf lead fields) fields s := by
  rw [← fieldRounds_iff lead fields halone]
  apply and_iff_left_of_imp
  intro ⟨fuel, hrounds⟩
  refine ⟨fuel, ?_⟩
  beta_reduce
  rw [parseFields_eq_rounds]
  exact map_ok_iff.mpr ⟨r, hrounds, rfl⟩

/-- `Item:A{byte A.x (1),}`, a blank, and `byte F.y (1),`. -/
def itemAndField : List (Field × Gap) :=
  [(.item (ascii "A") (ascii "byte A.x (1),") (by decide) (by decide), ⟨[0x20], rfl⟩),
    (.typed (ascii "byte F.y (1)") (by decide) (by decide) (by decide), ⟨[], rfl⟩)]

theorem oneAfterAnother_itemAndField :
    ∃ r, Returns (fun fuel => eachAlone .ordinal fuel itemAndField .new) r ∧
      OneAfterAnother .ordinal ⟨[], rfl⟩ itemAndField .new r := by
  have hsome : (eachAlone .ordinal 2 itemAndField .new).toOption.isSome = true := by decide +kernel
  obtain ⟨r, halone⟩ := exists_returns (f := fun fuel => eachAlone .ordinal fuel itemAndField .new)
    hsome
  refine ⟨r, halone, (oneAfterAnother_iff _ _ _ _ halone).mpr ⟨?_, ?_⟩⟩
  · change startWithTypeName _ _ = _
    decide +kernel
  · intro alone _
    exact ⟨trivial, fun _ _ => trivial⟩

def oneVector : List (Field × Gap) :=
  [(.vector (ascii
      (" byte F.v (?) [Repeat=True] [AdvanceMode=X] [ConditionType=ClosedBy]" ++
        " [Separator=;] [Enclose=:]"))
      (by decide), ⟨[], rfl⟩)]

/-- A vector at the end of a body is parsed, and then one more than there is is cut off. -/
theorem not_oneAfterAnother :
    ∃ r, Returns (fun fuel => eachAlone .ordinal fuel oneVector .new) r ∧
      (∀ built, ¬ Returns (fun fuel => parseFields .ordinal fuel (bodyOf ⟨[], rfl⟩ oneVector)
        (bodyOf ⟨[], rfl⟩ oneVector) .new) built) ∧
      ¬ OneAfterAnother .ordinal ⟨[], rfl⟩ oneVector .new r := by
  have hsome : (eachAlone .ordinal 0 oneVector .new).toOption.isSome = true := by decide +kernel
  obtain ⟨r, halone⟩ := exists_returns (f := fun fuel => eachAlone .ordinal fuel oneVector .new)
    hsome
  have hthrows : (parseFields .ordinal 2 (bodyOf ⟨[], rfl⟩ oneVector)
      (bodyOf ⟨[], rfl⟩ oneVector) .new).map (fun _ => ()) =
        .error (.threw (.raised .argumentOutOfRange)) := by decide +kernel
  have hnever : ∀ built, ¬ Returns (fun fuel => parseFields .ordinal fuel
      (bodyOf ⟨[], rfl⟩ oneVector) (bodyOf ⟨[], rfl⟩ oneVector) .new) built := by
    intro built
    exact (parseFields_increasing .ordinal _ _ .new).not_returns hthrows nofun
  exact ⟨r, halone, hnever, fun h => hnever _ h.2⟩

end AllFields

end DecodingProxy.MappedFrameReader.TextImporter
