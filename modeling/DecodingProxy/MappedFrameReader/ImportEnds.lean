import DecodingProxy.Lib.Fuel
import DecodingProxy.MappedFrameReader.TextImporter
import Mathlib.Data.List.DropRight

/-!
# Where the importer ends

Every round of the two loops of the importer takes something off the text, or throws, but two of
them: an entry that is neither a scheme nor a frame stays where it is, and so does a field `Item`
in which the regular expression finds nothing. The importer ends just when it comes to none of
these.
-/

namespace DecodingProxy.MappedFrameReader
open DecodingProxy.Fuel DecodingProxy.Runs DecodingProxy.Runtime Relation

namespace SchemeText

/-! ### Lengths -/

variable {s : Str}

theorem closing_lt {depth i : ℕ} (h : closing depth s = some i) : i < s.length := by
  induction s generalizing depth i with
  | nil => cases h
  | cons c s ih =>
    unfold closing at h
    split_ifs at h
    · split at h
      · cases h
        exact Nat.zero_lt_succ _
      · obtain ⟨j, hj, rfl⟩ := Option.map_eq_some_iff.mp h
        exact Nat.succ_lt_succ (ih hj)
    · obtain ⟨j, hj, rfl⟩ := Option.map_eq_some_iff.mp h
      exact Nat.succ_lt_succ (ih hj)
    · obtain ⟨j, hj, rfl⟩ := Option.map_eq_some_iff.mp h
      exact Nat.succ_lt_succ (ih hj)

theorem lastIndexOf_lt {value : UInt16} {i : ℕ} (h : lastIndexOf value s = some i) :
    i < s.length := by
  obtain ⟨j, hj, rfl⟩ := Option.map_eq_some_iff.mp h
  obtain ⟨hlt, -⟩ := List.findIdx?_eq_some_iff_getElem.mp hj
  rw [List.length_reverse] at hlt
  omega

theorem bodyLength_lt {n : ℕ} (h : bodyLength s = some n) : n < s.length := by
  rcases Option.or_eq_some_iff.mp h with hclosing | ⟨-, hlast⟩
  · exact closing_lt hclosing
  · exact lastIndexOf_lt hlast

theorem firstMatch_some {α : Type*} {matchAt : Str → Option α} {a : α}
    (h : firstMatch matchAt s = some a) : ∃ t, t <:+ s ∧ matchAt t = some a := by
  induction s with
  | nil => exact ⟨[], List.suffix_rfl, h⟩
  | cons c s ih =>
    rcases Option.or_eq_some_iff.mp h with hhere | ⟨-, hlater⟩
    · exact ⟨c :: s, List.suffix_rfl, hhere⟩
    · obtain ⟨t, hsuffix, ht⟩ := ih hlater
      exact ⟨t, hsuffix.trans (List.suffix_cons c s), ht⟩

theorem bracedAt_lengths {keyword : Str} {isHead : UInt16 → Bool} {m : Braced}
    (h : bracedAt keyword isHead s = some m) :
    m.body.length < m.value.length ∧ m.value.length ≤ s.length := by
  unfold bracedAt at h
  split_ifs at h
  simp only at h
  split at h
  · cases h
  · rename_i c inside hinside
    split_ifs at h
    obtain ⟨n, hn, rfl⟩ := Option.map_eq_some_iff.mp h
    have hbody := bodyLength_lt hn
    have hsplit := congrArg List.length
      (List.takeWhile_append_dropWhile (p := isHead) (l := s.drop keyword.length))
    rw [hinside] at hsplit
    simp only [List.length_append, List.length_cons, List.length_drop] at hsplit
    simp only [List.length_take]
    omega

theorem firstBraced_lengths {keyword : Str} {isHead : UInt16 → Bool} {m : Braced}
    (h : firstMatch (bracedAt keyword isHead) s = some m) :
    m.body.length < m.value.length ∧ m.value.length ≤ s.length := by
  obtain ⟨t, hsuffix, ht⟩ := firstMatch_some h
  obtain ⟨hbody, hvalue⟩ := bracedAt_lengths ht
  exact ⟨hbody, hvalue.trans hsuffix.length_le⟩

theorem caseAt_lengths {item : SwitchCase} {rest : Str} (h : caseAt s = some (item, rest)) :
    item.caseBody.length < s.length ∧ rest.length ≤ s.length := by
  unfold caseAt at h
  split at h
  · rename_i inside hinside
    split at h
    · rename_i c behind length hbehind _
      split_ifs at h
      obtain ⟨n, hn, heq⟩ := Option.map_eq_some_iff.mp h
      cases heq
      have hbody := bodyLength_lt hn
      have houter : (inside.length + 1) ≤ s.length := by
        have hsuffix := List.dropWhile_suffix (l := s) fun c => !isBrace c && c ≠ 0x28
        rw [hinside] at hsuffix
        exact hsuffix.length_le
      have hinner : behind.length + 1 ≤ inside.length := by
        have hsuffix := List.dropWhile_suffix (l := inside) fun c => !isBrace c
        rw [hbehind] at hsuffix
        exact hsuffix.length_le
      have hwhite := (List.dropWhile_suffix (l := behind) Str.isWhiteSpace).length_le
      simp only [List.length_take, List.length_drop]
      omega
    · cases h
  · cases h

theorem caseBody_lt {item : SwitchCase} {left : ℕ} (h : item ∈ casesFrom left s) :
    item.caseBody.length < s.length := by
  induction left generalizing s with
  | zero => cases h
  | succ left ih =>
    unfold casesFrom at h
    split at h
    · rename_i first rest hfirst
      obtain ⟨hbody, hrest⟩ := caseAt_lengths hfirst
      rcases List.mem_cons.mp h with rfl | hlater
      · exact hbody
      · exact (ih hlater).trans_le hrest
    · cases h

theorem regexSwitchCases_lt {item : SwitchCase} (h : item ∈ regexSwitchCases s) :
    item.caseBody.length < s.length := by
  unfold regexSwitchCases at h
  cases hmatch : firstMatch
    (fun s => if casesFrom s.length s = [] then none else some (casesFrom s.length s)) s with
  | none =>
    rw [hmatch] at h
    cases h
  | some items =>
    rw [hmatch] at h
    obtain ⟨t, hsuffix, ht⟩ := firstMatch_some hmatch
    split_ifs at ht
    cases ht
    exact (caseBody_lt h).trans_le hsuffix.length_le

end SchemeText

namespace TextImporter
open SchemeText

variable {env : TextEnvironment} {capture : Str} {s : SchemeImporter}

/-! ### What a round takes off the text -/

theorem length_trimStart_le (s : Str) : (Str.trimStart s).length ≤ s.length :=
  (List.dropWhile_suffix Str.isWhiteSpace).length_le

theorem length_trim_le (s : Str) : (Str.trim s).length ≤ s.length := by
  unfold Str.trim Str.trimOf Str.trimEndOf
  rw [List.length_reverse]
  have hend := (List.dropWhile_suffix (l := (Str.trimStartOf Str.isWhiteSpace s).reverse)
    Str.isWhiteSpace).length_le
  rw [List.length_reverse] at hend
  exact hend.trans (length_trimStart_le s)

theorem beforeComma_index {input : Str} {before : ℕ × Str} (h : beforeComma input = .ok before) :
    Str.indexOf 0x2C input = some before.1 := by
  unfold beforeComma at h
  split at h
  · cases h
  · rename_i index hindex
    cases h
    exact hindex

theorem parseFieldTyped_length {input : Str} {type : DefinedType} {nodes : List Node}
    {t : SchemeImporter} {n : ℕ} (h : parseFieldTyped env input type s = .ok (n, nodes, t)) :
    ∃ index, Str.indexOf 0x2C input = some index ∧ n = index + 1 ∧
      ∃ path rest, nodes = .field path :: rest := by
  obtain ⟨before, hbefore, h⟩ := do_ok_iff.mp h
  obtain ⟨fieldControl, -, h⟩ := do_ok_iff.mp h
  obtain ⟨lengthControl, -, h⟩ := do_ok_iff.mp h
  obtain ⟨definedType, -, h⟩ := do_ok_iff.mp h
  obtain ⟨u, -, h⟩ := do_ok_iff.mp h
  obtain ⟨links, -, h⟩ := do_ok_iff.mp h
  obtain ⟨length, -, h⟩ := do_ok_iff.mp h
  obtain ⟨reading, -, h⟩ := do_ok_iff.mp h
  split at h
  · cases h
  · cases h
    exact ⟨before.1, beforeComma_index hbefore, rfl, _, _, rfl⟩

theorem parseFieldTyped_pos {type : DefinedType} {r : ℕ × List Node × SchemeImporter}
    (h : parseFieldTyped env capture type s = .ok r) : 0 < r.1 := by
  obtain ⟨index, -, hlength, -⟩ := parseFieldTyped_length h
  rw [hlength]
  exact Nat.zero_lt_succ index

theorem parseItem_length {parseBody : ParseBody} {str : Str} {m : Braced} {n : ℕ}
    {nodes : Chain} {t : SchemeImporter}
    (hm : regexItem str = some m) (h : parseItem parseBody str s = .ok (n, nodes, t)) :
    n = m.value.length := by
  unfold parseItem at h
  rw [hm] at h
  obtain ⟨opened, -, h⟩ := do_ok_iff.mp h
  obtain ⟨body, -, h⟩ := do_ok_iff.mp h
  cases h
  rfl

theorem parseSwitch_length {parseBody : ParseBody} {str : Str} {m : Braced} {n : ℕ}
    {nodes : Chain} {t : SchemeImporter}
    (hm : regexSwitch str = some m) (h : parseSwitch env parseBody str s = .ok (n, nodes, t)) :
    n = m.value.length := by
  unfold parseSwitch at h
  rw [hm] at h
  obtain ⟨opened, -, h⟩ := do_ok_iff.mp h
  obtain ⟨cases, -, h⟩ := do_ok_iff.mp h
  cases h
  rfl

theorem parseItem_pos {parseBody : ParseBody} {r : ℕ × Built}
    (h : parseItem parseBody capture s = .ok r) (hmatch : regexItem capture ≠ none) : 0 < r.1 := by
  obtain ⟨m, hm⟩ := Option.ne_none_iff_exists'.mp hmatch
  rw [parseItem_length hm h]
  exact Nat.zero_lt_of_lt (firstBraced_lengths hm).1

theorem parseSwitch_pos {parseBody : ParseBody} {input : Str} {r : ℕ × Built}
    (h : parseSwitch env parseBody input s = .ok r) : 0 < r.1 := by
  cases hm : regexSwitch input with
  | none =>
    unfold parseSwitch at h
    rw [hm] at h
    cases h
  | some m =>
    rw [parseSwitch_length hm h]
    exact Nat.zero_lt_of_lt (firstBraced_lengths hm).1

/-- Only a field `Item` without a match takes nothing. -/
theorem parseField_pos {parseBody : ParseBody} {input : Str} {r : ℕ × Built}
    (h : parseField env parseBody input capture s = .ok r)
    (hmatch : fieldKind env capture s = .ok .item → regexItem capture ≠ none) : 0 < r.1 := by
  obtain ⟨kind, hkind, h⟩ := do_ok_iff.mp h
  have hkind := mapError_ok_iff.mp hkind
  cases kind with
  | typed type =>
    obtain ⟨field, hfield, h⟩ := do_ok_iff.mp h
    cases h
    exact parseFieldTyped_pos (mapError_ok_iff.mp hfield)
  | vector =>
    obtain ⟨field, -, h⟩ := do_ok_iff.mp h
    cases h
    exact Nat.zero_lt_succ _
  | item => exact parseItem_pos h (hmatch hkind)
  | switch => exact parseSwitch_pos h
  | unknown => cases h

/-! ### Fuel -/

/-- `ParseFields` on a body, with so much fuel. -/
def bodyAt (env : TextEnvironment) (fuel : ℕ) : ParseBody :=
  fun body s => parseFields env fuel body body s

section Below

variable {parseBody parseBody' : ParseBody}
  (hbody : ∀ body s, Below Halt.diverges (parseBody body s) (parseBody' body s))
include hbody

theorem parseItem_below (str : Str) (s : SchemeImporter) :
    Below Halt.diverges (parseItem parseBody str s) (parseItem parseBody' str s) := by
  unfold parseItem
  split
  · exact .refl _
  · exact (Below.refl _).bind fun opened => (hbody _ _).bind fun body => .refl _

theorem parseCases_below (type : DefinedType) (hasDefault : Bool) (items : List SwitchCase)
    (s : SchemeImporter) :
    Below Halt.diverges (parseCases env parseBody type hasDefault items s)
      (parseCases env parseBody' type hasDefault items s) := by
  induction items generalizing hasDefault s with
  | nil => exact .refl _
  | cons item items ih =>
    exact (Below.refl _).bind fun opened => (hbody _ _).bind fun body =>
      (ih _ _).bind fun rest => .refl _

theorem parseSwitch_below (input : Str) (s : SchemeImporter) :
    Below Halt.diverges (parseSwitch env parseBody input s)
      (parseSwitch env parseBody' input s) := by
  unfold parseSwitch
  split
  · exact .refl _
  · exact (Below.refl _).bind fun opened =>
      (parseCases_below hbody _ _ _ _).bind fun cases => .refl _

theorem parseField_below (input capture : Str) (s : SchemeImporter) :
    Below Halt.diverges (parseField env parseBody input capture s)
      (parseField env parseBody' input capture s) := by
  apply (Below.refl _).bind
  intro kind
  cases kind with
  | typed type | vector | unknown => exact .refl _
  | item => exact parseItem_below hbody capture s
  | switch => exact parseSwitch_below hbody input s

theorem parseEntry_below (m : Braced) (substr : Str) (s : SchemeImporter) :
    Below Halt.diverges (parseEntry env parseBody m substr s)
      (parseEntry env parseBody' m substr s) := by
  unfold parseEntry
  split_ifs
  · exact .refl _
  · apply (Below.refl _).bind
    intro rest
    cases regexFrame m.value with
    | none => exact .refl _
    | some frame =>
      exact (Below.refl _).bind fun opened => (hbody _ _).bind fun body => .refl _
  · exact .refl _

end Below

theorem parseFields_increasing (env : TextEnvironment) (input capture : Str) (s : SchemeImporter) :
    Increasing Halt.diverges fun fuel => parseFields env fuel input capture s := by
  intro fuel
  induction fuel generalizing input capture s with
  | zero => exact .inl rfl
  | succ fuel ih =>
    beta_reduce
    rw [parseFields, parseFields]
    split_ifs
    · exact .refl _
    · apply (parseField_below (fun body s => ih body body s) input _ s).bind
      intro field
      exact (Below.refl _).bind fun rest => (ih _ _ _).bind fun built => .refl _

theorem fromText_increasing (env : TextEnvironment) (substr : Str) (s : SchemeImporter) :
    Increasing Halt.diverges fun fuel => fromText env fuel substr s := by
  intro fuel
  induction fuel generalizing substr s with
  | zero => exact .inl rfl
  | succ fuel ih =>
    beta_reduce
    rw [fromText, fromText]
    cases regexEntry substr with
    | none => exact .refl _
    | some m =>
      have hbody := fun body s => parseFields_increasing env body body s fuel
      apply (parseEntry_below hbody m _ s).bind
      intro entry
      exact (ih _ _).bind fun built => .refl _

/-! ### Positions -/

/-- Where the importer is: in front of an entry, of a field, or of a case. -/
inductive Position
  | file (substr : Str) (s : SchemeImporter)
  | fields (input capture : Str) (s : SchemeImporter)
  | cases (type : DefinedType) (hasDefault : Bool) (items : List SwitchCase) (s : SchemeImporter)

/-- From here on it returns or throws. -/
def Position.Ends (env : TextEnvironment) : Position → Prop
  | .file substr s => Fuel.Ends Halt.diverges fun fuel => fromText env fuel substr s
  | .fields input capture s =>
    Fuel.Ends Halt.diverges fun fuel => parseFields env fuel input capture s
  | .cases type hasDefault items s =>
    Fuel.Ends Halt.diverges fun fuel => parseCases env (bodyAt env fuel) type hasDefault items s

/-- The positions that a round comes to: its calls, and the next round. -/
inductive After (env : TextEnvironment) : Position → Position → Prop
  | item {input capture : Str} {s t : SchemeImporter} {m : Braced} {path : String}
      {links : List Node} :
    Str.trimStart capture ≠ [] → fieldKind env (Str.trimStart capture) s = .ok .item →
    regexItem (Str.trimStart capture) = some m → openItem m s = .ok (path, links, t) →
    After env (.fields input capture s) (.fields m.body m.body t)
  | switch {input capture : Str} {s : SchemeImporter} {m : Braced} {path : String}
      {type : DefinedType} :
    Str.trimStart capture ≠ [] → fieldKind env (Str.trimStart capture) s = .ok .switch →
    regexSwitch input = some m → openSwitch m s = .ok (path, type) →
    After env (.fields input capture s) (.cases type false (regexSwitchCases m.body) s)
  | field {input capture rest : Str} {s t : SchemeImporter} {fuel length : ℕ} {nodes : Chain} :
    Str.trimStart capture ≠ [] →
    parseField env (bodyAt env fuel) input (Str.trimStart capture) s = .ok (length, nodes, t) →
    Str.substring length (Str.trimStart capture) = .ok rest →
    After env (.fields input capture s) (.fields input rest t)
  | body {type : DefinedType} {hasDefault hasDefault' : Bool} {item : SwitchCase}
      {items : List SwitchCase} {s : SchemeImporter} {value : Option UInt8} :
    openCase env type hasDefault item.caseMeta = .ok (value, hasDefault') →
    After env (.cases type hasDefault (item :: items) s) (.fields item.caseBody item.caseBody s)
  | case {type : DefinedType} {hasDefault hasDefault' : Bool} {item : SwitchCase}
      {items : List SwitchCase} {s t : SchemeImporter} {value : Option UInt8} {fuel : ℕ}
      {nodes : Chain} :
    openCase env type hasDefault item.caseMeta = .ok (value, hasDefault') →
    bodyAt env fuel item.caseBody s = .ok (nodes, t) →
    After env (.cases type hasDefault (item :: items) s) (.cases type hasDefault' items t)
  | frame {substr rest : Str} {s t : SchemeImporter} {entry m : Braced} {path : String}
      {links : List Node} :
    regexEntry substr = some entry → env.startsWith entry.value (ascii "Scheme") = false →
    env.startsWith entry.value (ascii "Frame") →
    Str.substring entry.value.length substr = .ok rest →
    regexFrame entry.value = some m → openFrame m s = .ok (path, links, t) →
    After env (.file substr s) (.fields m.body m.body t)
  | entry {substr rest : Str} {s t : SchemeImporter} {entry : Braced} {fuel : ℕ} {nodes : Chain} :
    regexEntry substr = some entry →
    parseEntry env (bodyAt env fuel) entry substr s = .ok (rest, nodes, t) →
    After env (.file substr s) (.file rest t)

/-- A round that leaves everything as it is: an entry of another kind, and a field `Item` in which
the expression finds nothing. -/
def Stalled (env : TextEnvironment) : Position → Prop
  | .file substr _ => ∃ entry, regexEntry substr = some entry ∧
      env.startsWith entry.value (ascii "Scheme") = false ∧
      env.startsWith entry.value (ascii "Frame") = false
  | .fields _ capture s => Str.trimStart capture ≠ [] ∧
      fieldKind env (Str.trimStart capture) s = .ok .item ∧
      regexItem (Str.trimStart capture) = none
  | .cases _ _ _ _ => False

theorem trimStart_trimStart (s : Str) : Str.trimStart (Str.trimStart s) = Str.trimStart s :=
  List.dropWhile_idempotent _ s

theorem fromText_stalled {substr : Str} (h : Stalled env (.file substr s)) (fuel : ℕ) :
    fromText env fuel substr s = .error .diverges := by
  obtain ⟨entry, hentry, hscheme, hframe⟩ := h
  induction fuel with
  | zero => rfl
  | succ fuel ih =>
    have hround : parseEntry env (bodyAt env fuel) entry substr s = .ok (substr, .null, s) := by
      unfold parseEntry
      rw [hscheme, hframe]
      rfl
    rw [fromText, hentry]
    exact (do_of_ok hround).trans (congrArg (· >>= _) ih)

theorem parseFields_stalled {input : Str} (h : Stalled env (.fields input capture s)) (fuel : ℕ) :
    parseFields env fuel input capture s = .error .diverges := by
  induction fuel generalizing capture with
  | zero => rfl
  | succ fuel ih =>
    obtain ⟨hne, hkind, hmatch⟩ := h
    have hround : parseField env (bodyAt env fuel) input (Str.trimStart capture) s =
        .ok (0, .null, s) := by
      unfold parseField parseItem
      rw [hkind, hmatch]
      rfl
    have hagain : Stalled env (.fields input (Str.trimStart capture) s) := by
      simp only [Stalled, trimStart_trimStart]
      exact ⟨hne, hkind, hmatch⟩
    rw [parseFields, if_neg hne]
    exact (do_of_ok hround).trans (congrArg (· >>= _) (ih hagain))

/-! ### One round -/

theorem bodyAt_increasing (env : TextEnvironment) (body : Str) (s : SchemeImporter) :
    Increasing Halt.diverges fun fuel => bodyAt env fuel body s :=
  parseFields_increasing env body body s

theorem parseItem_increasing (env : TextEnvironment) (str : Str) (s : SchemeImporter) :
    Increasing Halt.diverges fun fuel => parseItem (bodyAt env fuel) str s :=
  fun fuel => parseItem_below (fun body s => bodyAt_increasing env body s fuel) str s

theorem parseCases_increasing (env : TextEnvironment) (type : DefinedType) (hasDefault : Bool)
    (items : List SwitchCase) (s : SchemeImporter) :
    Increasing Halt.diverges fun fuel => parseCases env (bodyAt env fuel) type hasDefault items s :=
  fun fuel => parseCases_below (fun body s => bodyAt_increasing env body s fuel) type hasDefault
    items s

theorem parseField_increasing (env : TextEnvironment) (input capture : Str) (s : SchemeImporter) :
    Increasing Halt.diverges fun fuel => parseField env (bodyAt env fuel) input capture s :=
  fun fuel => parseField_below (fun body s => bodyAt_increasing env body s fuel) input capture s

theorem parseEntry_increasing (env : TextEnvironment) (m : Braced) (substr : Str)
    (s : SchemeImporter) :
    Increasing Halt.diverges fun fuel => parseEntry env (bodyAt env fuel) m substr s :=
  fun fuel => parseEntry_below (fun body s => bodyAt_increasing env body s fuel) m substr s

theorem mapError_threw_ne {α : Type} (x : Except Fault α) :
    x.mapError Halt.threw ≠ .error .diverges := by
  cases x with
  | error fault => exact nofun
  | ok a => exact nofun

theorem threw_bind_ne {α β : Type} (x : Except Fault α) {f : α → Except Halt β}
    (hf : ∀ a, f a ≠ .error .diverges) : x.mapError Halt.threw >>= f ≠ .error .diverges := by
  cases x with
  | error fault => exact nofun
  | ok a => exact hf a

/-- Behind something that returns or throws at once it is the rest that may not end. -/
theorem ends_threw_bind {α β : Type} {x : Except Fault α} {g : α → ℕ → Except Halt β}
    (hg : ∀ a, Increasing Halt.diverges (g a)) :
    Fuel.Ends Halt.diverges (fun fuel => x.mapError Halt.threw >>= fun a => g a fuel) ↔
      ∀ a, x = .ok a → Fuel.Ends Halt.diverges (g a) := by
  rw [ends_bind (fun _ => .refl _) hg]
  constructor
  · intro ⟨_, hnext⟩ a ha
    exact hnext 0 a (mapError_ok_iff.mpr ha)
  · intro hnext
    exact ⟨⟨0, mapError_threw_ne x⟩, fun _ a ha => hnext a (mapError_ok_iff.mp ha)⟩

theorem increasing_bind_ok {α β : Type} {f : ℕ → Except Halt α} {g : α → Except Halt β}
    (hf : Increasing Halt.diverges f) : Increasing Halt.diverges fun fuel => f fuel >>= g :=
  fun fuel => (hf fuel).bind fun _ => .refl _

/-- What follows a call and cannot fail to end does not matter. -/
theorem ends_bind_ok {α β : Type} {f : ℕ → Except Halt α} {g : α → β}
    (hf : Increasing Halt.diverges f) :
    Fuel.Ends Halt.diverges (fun fuel => f fuel >>= fun a => .ok (g a)) ↔
      Fuel.Ends Halt.diverges f := by
  rw [ends_bind hf (fun a _ => .refl _)]
  exact and_iff_left fun _ _ _ => ⟨0, nofun⟩

theorem parseItem_ends {m : Braced} (hm : regexItem capture = some m) :
    (Fuel.Ends Halt.diverges fun fuel => parseItem (bodyAt env fuel) capture s) ↔
      ∀ path links t, openItem m s = .ok (path, links, t) →
        (Position.fields m.body m.body t).Ends env := by
  unfold parseItem
  rw [hm]
  simp only
  rw [ends_threw_bind fun opened => increasing_bind_ok (bodyAt_increasing env m.body _)]
  constructor
  · intro h path links t hopened
    exact (ends_bind_ok (bodyAt_increasing env m.body t)).mp (h _ hopened)
  · intro h opened hopened
    exact (ends_bind_ok (bodyAt_increasing env m.body _)).mpr (h _ _ _ hopened)

theorem parseSwitch_ends {input : Str} {m : Braced} (hm : regexSwitch input = some m) :
    (Fuel.Ends Halt.diverges fun fuel => parseSwitch env (bodyAt env fuel) input s) ↔
      ∀ path type, openSwitch m s = .ok (path, type) →
        (Position.cases type false (regexSwitchCases m.body) s).Ends env := by
  unfold parseSwitch
  rw [hm]
  simp only
  rw [ends_threw_bind fun opened => increasing_bind_ok (parseCases_increasing env _ _ _ s)]
  constructor
  · intro h path type hopened
    exact (ends_bind_ok (parseCases_increasing env _ _ _ s)).mp (h _ hopened)
  · intro h opened hopened
    exact (ends_bind_ok (parseCases_increasing env _ _ _ s)).mpr (h _ _ hopened)

theorem parseField_ends {input : Str} (hmatch : fieldKind env capture s = .ok .item →
    regexItem capture ≠ none) :
    (Fuel.Ends Halt.diverges fun fuel => parseField env (bodyAt env fuel) input capture s) ↔
      (∀ m path links t, fieldKind env capture s = .ok .item → regexItem capture = some m →
        openItem m s = .ok (path, links, t) → (Position.fields m.body m.body t).Ends env) ∧
      (∀ m path type, fieldKind env capture s = .ok .switch → regexSwitch input = some m →
        openSwitch m s = .ok (path, type) →
          (Position.cases type false (regexSwitchCases m.body) s).Ends env) := by
  unfold parseField
  cases hkind : fieldKind env capture s with
  | error fault =>
    refine iff_of_true ⟨0, nofun⟩ ⟨?_, ?_⟩
    · intro m path links t hitem
      cases hitem
    · intro m path type hswitch
      cases hswitch
  | ok kind =>
    cases kind with
    | typed type =>
      refine iff_of_true (ends_const.mpr ?_) ⟨nofun, nofun⟩
      exact threw_bind_ne (parseFieldTyped env capture type s) fun _ => nofun
    | vector =>
      refine iff_of_true (ends_const.mpr ?_) ⟨nofun, nofun⟩
      exact threw_bind_ne (parseVector env capture s) fun _ => nofun
    | unknown => exact iff_of_true ⟨0, nofun⟩ ⟨nofun, nofun⟩
    | item =>
      obtain ⟨m, hm⟩ := Option.ne_none_iff_exists'.mp (hmatch hkind)
      apply (parseItem_ends hm).trans
      constructor
      · intro h
        refine ⟨?_, nofun⟩
        intro m' path links t _ hm' hopened
        obtain rfl := Option.some.inj (hm.symm.trans hm')
        exact h path links t hopened
      · intro ⟨h, _⟩ path links t hopened
        exact h m path links t rfl hm hopened
    | switch =>
      cases hm : regexSwitch input with
      | none =>
        refine iff_of_true ⟨0, ?_⟩ ⟨nofun, nofun⟩
        change parseSwitch env (bodyAt env 0) input s ≠ _
        unfold parseSwitch
        rw [hm]
        exact nofun
      | some m =>
        apply (parseSwitch_ends hm).trans
        constructor
        · intro h
          refine ⟨nofun, ?_⟩
          intro m' path type _ hm' hopened
          obtain rfl := Option.some.inj hm'
          exact h path type hopened
        · intro ⟨_, h⟩ path type hopened
          exact h m path type rfl rfl hopened

theorem parseFields_ends {input : Str} (hne : Str.trimStart capture ≠ []) :
    (Position.fields input capture s).Ends env ↔
      (Fuel.Ends Halt.diverges fun fuel =>
        parseField env (bodyAt env fuel) input (Str.trimStart capture) s) ∧
      ∀ fuel length nodes t rest,
        parseField env (bodyAt env fuel) input (Str.trimStart capture) s =
          .ok (length, nodes, t) →
        Str.substring length (Str.trimStart capture) = .ok rest →
        (Position.fields input rest t).Ends env := by
  have hround : (fun fuel => parseFields env (fuel + 1) input capture s) = fun fuel =>
      parseField env (bodyAt env fuel) input (Str.trimStart capture) s >>= fun field =>
        (Str.substring field.1 (Str.trimStart capture)).mapError Halt.threw >>= fun rest =>
          parseFields env fuel input rest field.2.2 >>= fun built =>
            .ok (field.2.1.append built.1, built.2) := by
    funext fuel
    rw [parseFields, if_neg hne]
    rfl
  have hrest : ∀ (field : ℕ × Built) (rest : Str), Increasing Halt.diverges fun fuel =>
      parseFields env fuel input rest field.2.2 >>= fun built =>
        Except.ok (field.2.1.append built.1, built.2) :=
    fun field rest => increasing_bind_ok (parseFields_increasing env input rest field.2.2)
  have hzero : (fun fuel => parseFields env fuel input capture s) 0 = .error .diverges := rfl
  change Fuel.Ends _ _ ↔ _
  rw [ends_succ hzero, hround]
  have hfield : ∀ field : ℕ × Built, Increasing Halt.diverges fun fuel =>
      (Str.substring field.1 (Str.trimStart capture)).mapError Halt.threw >>= fun rest =>
        parseFields env fuel input rest field.2.2 >>= fun built =>
          Except.ok (field.2.1.append built.1, built.2) :=
    fun field fuel => (Below.refl _).bind fun rest => hrest field rest fuel
  apply (ends_bind (parseField_increasing env input _ s) hfield).trans
  apply and_congr_right
  intro _
  constructor
  · intro h fuel length nodes t rest hfield hsub
    have hnext := (ends_threw_bind (hrest (length, nodes, t))).mp (h fuel _ hfield) rest hsub
    exact (ends_bind_ok (parseFields_increasing env input rest t)).mp hnext
  · intro h fuel field hfield
    apply (ends_threw_bind (hrest field)).mpr
    intro rest hsub
    exact (ends_bind_ok (parseFields_increasing env input rest field.2.2)).mpr
      (h fuel _ _ _ rest hfield hsub)

theorem fields_step {input : Str} (hnot : ¬ Stalled env (.fields input capture s)) :
    (Position.fields input capture s).Ends env ↔
      ∀ q, After env (.fields input capture s) q → q.Ends env := by
  by_cases hempty : Str.trimStart capture = []
  · refine iff_of_true ⟨1, ?_⟩ ?_
    · beta_reduce
      rw [parseFields, if_pos hempty]
      exact nofun
    · intro q hafter
      cases hafter with
      | item hne | switch hne | field hne => exact absurd hempty hne
  · have hmatch : fieldKind env (Str.trimStart capture) s = .ok .item →
        regexItem (Str.trimStart capture) ≠ none := by
      intro hkind hnone
      exact hnot ⟨hempty, hkind, hnone⟩
    rw [parseFields_ends hempty, parseField_ends hmatch]
    constructor
    · intro ⟨⟨hitem, hswitch⟩, hfield⟩ q hafter
      cases hafter with
      | item _ hkind hm hopened => exact hitem _ _ _ _ hkind hm hopened
      | switch _ hkind hm hopened => exact hswitch _ _ _ hkind hm hopened
      | field _ hround hsub => exact hfield _ _ _ _ _ hround hsub
    · intro h
      refine ⟨⟨?_, ?_⟩, ?_⟩
      · intro m path links t hkind hm hopened
        exact h _ (.item hempty hkind hm hopened)
      · intro m path type hkind hm hopened
        exact h _ (.switch hempty hkind hm hopened)
      · intro fuel length nodes t rest hround hsub
        exact h _ (.field hempty hround hsub)

theorem cases_step {type : DefinedType} {hasDefault : Bool} {items : List SwitchCase} :
    (Position.cases type hasDefault items s).Ends env ↔
      ∀ q, After env (.cases type hasDefault items s) q → q.Ends env := by
  cases items with
  | nil =>
    refine iff_of_true ⟨0, nofun⟩ ?_
    intro q hafter
    cases hafter
  | cons item items =>
    have hrest : ∀ (opened : Option UInt8 × Bool) (body : Built),
        Increasing Halt.diverges fun fuel =>
          parseCases env (bodyAt env fuel) type opened.2 items body.2 >>= fun rest =>
            Except.ok (Cases.case opened.1 (.node .switchItem
              (body.1.append (.node .switchItemEnd .null))) rest.1, rest.2) :=
      fun opened body => increasing_bind_ok (parseCases_increasing env type opened.2 items body.2)
    have hcases := ends_threw_bind (x := openCase env type hasDefault item.caseMeta)
      fun opened fuel => (bodyAt_increasing env item.caseBody s fuel).bind fun body =>
        hrest opened body fuel
    apply hcases.trans
    constructor
    · intro h q hafter
      cases hafter with
      | body hopened =>
        exact ((ends_bind (bodyAt_increasing env _ s) (hrest _)).mp (h _ hopened)).1
      | case hopened hbody =>
        have hnext := ((ends_bind (bodyAt_increasing env _ s) (hrest _)).mp (h _ hopened)).2 _ _
          hbody
        exact (ends_bind_ok (parseCases_increasing env type _ items _)).mp hnext
    · intro h opened hopened
      apply (ends_bind (bodyAt_increasing env _ s) (hrest opened)).mpr
      refine ⟨h _ (.body hopened), ?_⟩
      intro fuel body hbody
      exact (ends_bind_ok (parseCases_increasing env type _ items _)).mpr
        (h _ (.case hopened hbody))

theorem parseFrame_ends {entry substr : Str} :
    (Fuel.Ends Halt.diverges fun fuel => parseFrame (bodyAt env fuel) entry substr s) ↔
      ∀ rest m path links t, Str.substring entry.length substr = .ok rest →
        regexFrame entry = some m → openFrame m s = .ok (path, links, t) →
          (Position.fields m.body m.body t).Ends env := by
  unfold parseFrame
  cases hm : regexFrame entry with
  | none =>
    refine iff_of_true ⟨0, ?_⟩ nofun
    exact threw_bind_ne (Str.substring entry.length substr) fun _ => nofun
  | some m =>
    have hbody : ∀ (rest : Str) (opened : String × List Node × SchemeImporter),
        Increasing Halt.diverges fun fuel =>
          bodyAt env fuel m.body opened.2.2 >>= fun body =>
            Except.ok (Str.trimStart rest, Chain.ofNodes (.frameBegin opened.1 :: opened.2.1)
              (body.1.append (.ofNodes [.frameEnd opened.1, .result opened.1 .fromTo] .null)),
              body.2) :=
      fun rest opened => increasing_bind_ok (bodyAt_increasing env m.body opened.2.2)
    have hopen : ∀ rest : Str, Increasing Halt.diverges fun fuel =>
        (openFrame m s).mapError Halt.threw >>= fun opened =>
          bodyAt env fuel m.body opened.2.2 >>= fun body =>
            Except.ok (Str.trimStart rest, Chain.ofNodes (.frameBegin opened.1 :: opened.2.1)
              (body.1.append (.ofNodes [.frameEnd opened.1, .result opened.1 .fromTo] .null)),
              body.2) :=
      fun rest fuel => (Below.refl _).bind fun opened => hbody rest opened fuel
    apply (ends_threw_bind hopen).trans
    constructor
    · intro h rest m' path links t hrest hm' hopened
      obtain rfl := Option.some.inj hm'
      exact (ends_bind_ok (bodyAt_increasing env m.body t)).mp
        ((ends_threw_bind (hbody rest)).mp (h rest hrest) _ hopened)
    · intro h rest hrest
      apply (ends_threw_bind (hbody rest)).mpr
      intro opened hopened
      exact (ends_bind_ok (bodyAt_increasing env m.body _)).mpr (h rest m _ _ _ hrest rfl hopened)

theorem parseEntry_ends {entry : Braced} {substr : Str}
    (hkind : ¬ (env.startsWith entry.value (ascii "Scheme") = false ∧
      env.startsWith entry.value (ascii "Frame") = false)) :
    (Fuel.Ends Halt.diverges fun fuel => parseEntry env (bodyAt env fuel) entry substr s) ↔
      ∀ rest m path links t, env.startsWith entry.value (ascii "Scheme") = false →
        env.startsWith entry.value (ascii "Frame") →
        Str.substring entry.value.length substr = .ok rest →
        regexFrame entry.value = some m → openFrame m s = .ok (path, links, t) →
          (Position.fields m.body m.body t).Ends env := by
  unfold parseEntry
  cases hscheme : env.startsWith entry.value (ascii "Scheme") with
  | true =>
    refine iff_of_true ⟨0, ?_⟩ nofun
    beta_reduce
    rw [if_pos rfl]
    exact threw_bind_ne (parseScheme env substr entry) fun _ => nofun
  | false =>
    have hframe : env.startsWith entry.value (ascii "Frame") = true :=
      Bool.eq_true_of_not_eq_false fun hframe => hkind ⟨hscheme, hframe⟩
    rw [hframe]
    apply parseFrame_ends.trans
    constructor
    · intro h rest m path links t _ _
      exact h rest m path links t
    · intro h rest m path links t
      exact h rest m path links t rfl rfl

theorem fromText_ends {substr : Str} {entry : Braced} (hentry : regexEntry substr = some entry) :
    (Position.file substr s).Ends env ↔
      (Fuel.Ends Halt.diverges fun fuel => parseEntry env (bodyAt env fuel) entry substr s) ∧
      ∀ fuel rest nodes t, parseEntry env (bodyAt env fuel) entry substr s = .ok (rest, nodes, t) →
        (Position.file rest t).Ends env := by
  have hround : (fun fuel => fromText env (fuel + 1) substr s) = fun fuel =>
      parseEntry env (bodyAt env fuel) entry substr s >>= fun read =>
        fromText env fuel read.1 read.2.2 >>= fun built =>
          .ok (read.2.1.append built.1, built.2) := by
    funext fuel
    rw [fromText, hentry]
    rfl
  have hrest : ∀ read : Str × Built, Increasing Halt.diverges fun fuel =>
      fromText env fuel read.1 read.2.2 >>= fun built =>
        Except.ok (read.2.1.append built.1, built.2) :=
    fun read => increasing_bind_ok (fromText_increasing env read.1 read.2.2)
  have hzero : (fun fuel => fromText env fuel substr s) 0 = .error .diverges := rfl
  change Fuel.Ends _ _ ↔ _
  rw [ends_succ hzero, hround]
  apply (ends_bind (parseEntry_increasing env entry substr s) hrest).trans
  apply and_congr_right
  intro _
  constructor
  · intro h fuel rest nodes t hread
    exact (ends_bind_ok (fromText_increasing env rest t)).mp (h fuel _ hread)
  · intro h fuel read hread
    exact (ends_bind_ok (fromText_increasing env read.1 read.2.2)).mpr (h fuel _ _ _ hread)

theorem file_step {substr : Str} (hnot : ¬ Stalled env (.file substr s)) :
    (Position.file substr s).Ends env ↔ ∀ q, After env (.file substr s) q → q.Ends env := by
  cases hentry : regexEntry substr with
  | none =>
    refine iff_of_true ⟨1, ?_⟩ ?_
    · beta_reduce
      rw [fromText, hentry]
      exact nofun
    · intro q hafter
      cases hafter with
      | frame hsome | entry hsome =>
        rw [hentry] at hsome
        cases hsome
  | some entry =>
    have hkind : ¬ (env.startsWith entry.value (ascii "Scheme") = false ∧
        env.startsWith entry.value (ascii "Frame") = false) :=
      fun hneither => hnot ⟨entry, hentry, hneither⟩
    rw [fromText_ends hentry, parseEntry_ends hkind]
    constructor
    · intro ⟨hframe, hread⟩ q hafter
      cases hafter with
      | frame hsome hscheme hstarts hsub hm hopened =>
        obtain rfl := Option.some.inj (hentry.symm.trans hsome)
        exact hframe _ _ _ _ _ hscheme hstarts hsub hm hopened
      | entry hsome hround =>
        obtain rfl := Option.some.inj (hentry.symm.trans hsome)
        exact hread _ _ _ _ hround
    · intro h
      refine ⟨?_, ?_⟩
      · intro rest m path links t hscheme hstarts hsub hm hopened
        exact h _ (.frame hentry hscheme hstarts hsub hm hopened)
      · intro fuel rest nodes t hround
        exact h _ (.entry hentry hround)

/-! ### The text gets shorter -/

/-- The longest text still to be parsed, and how much of it is left. -/
def Position.rank : Position → ℕ × ℕ
  | .file substr _ => (substr.length, 0)
  | .fields input capture _ => (max input.length capture.length, capture.length)
  | .cases _ _ items _ => ((items.map (·.caseBody.length + 1)).foldr max 0, items.length)

theorem lex_of_le {a b c d : ℕ} (hle : a ≤ c) (hlt : b < d) :
    Prod.Lex (· < ·) (· < ·) (a, b) (c, d) := by
  rcases hle.lt_or_eq with h | rfl
  · exact .left _ _ h
  · exact .right _ hlt

theorem substring_ok {n : ℕ} {str rest : Str} (h : Str.substring n str = .ok rest) :
    rest.length + n = str.length := by
  unfold Str.substring at h
  split_ifs at h with hlong
  cases h
  rw [List.length_drop]
  omega

theorem longest_lt {items : List SwitchCase} {n : ℕ} (hne : 0 < n)
    (h : ∀ item ∈ items, item.caseBody.length + 1 < n) :
    (items.map (·.caseBody.length + 1)).foldr max 0 < n := by
  induction items with
  | nil => exact hne
  | cons item items ih =>
    exact max_lt (h item List.mem_cons_self) (ih fun other hother => h other (.tail _ hother))

theorem parseEntry_lt {parseBody : ParseBody} {entry : Braced} {substr rest : Str} {built : Built}
    (hentry : regexEntry substr = some entry)
    (hkind : ¬ (env.startsWith entry.value (ascii "Scheme") = false ∧
      env.startsWith entry.value (ascii "Frame") = false))
    (h : parseEntry env parseBody entry substr s = .ok (rest, built)) :
    rest.length < substr.length := by
  have hpos := Nat.zero_lt_of_lt (firstBraced_lengths hentry).1
  have hshorter : ∀ left, Str.substring entry.value.length substr = .ok left →
      left.length < substr.length := by
    intro left hleft
    have hlength := substring_ok hleft
    omega
  unfold parseEntry at h
  split_ifs at h with hscheme hframe
  · obtain ⟨read, hread, h⟩ := do_ok_iff.mp h
    cases h
    obtain ⟨left, hleft, hread⟩ := do_ok_iff.mp (mapError_ok_iff.mp hread)
    obtain ⟨keyword, -, hread⟩ := do_ok_iff.mp hread
    obtain ⟨name, -, hread⟩ := do_ok_iff.mp hread
    split_ifs at hread
    obtain ⟨instructions, -, hread⟩ := do_ok_iff.mp hread
    cases hread
    exact (length_trim_le left).trans_lt (hshorter left hleft)
  · obtain ⟨left, hleft, h⟩ := do_ok_iff.mp h
    split at h
    · cases h
    · obtain ⟨opened, -, h⟩ := do_ok_iff.mp h
      obtain ⟨body, -, h⟩ := do_ok_iff.mp h
      cases h
      exact (length_trimStart_le left).trans_lt (hshorter left (mapError_ok_iff.mp hleft))
  · exact absurd ⟨Bool.eq_false_of_not_eq_true hscheme, Bool.eq_false_of_not_eq_true hframe⟩ hkind

theorem rank_after {p q : Position} (hnot : ¬ Stalled env p) (hafter : After env p q) :
    Prod.Lex (· < ·) (· < ·) q.rank p.rank := by
  cases hafter with
  | @item input capture s t m path links hne hkind hm hopened =>
    have hbody := firstBraced_lengths hm
    have htrimmed := length_trimStart_le capture
    apply Prod.Lex.left
    rw [max_self]
    exact lt_max_of_lt_right (by omega)
  | @switch input capture s m path type hne hkind hm hopened =>
    have hbody := firstBraced_lengths hm
    apply Prod.Lex.left
    apply lt_max_of_lt_left
    apply longest_lt (by omega)
    intro item hitem
    have hcase := regexSwitchCases_lt hitem
    omega
  | @field input capture rest s t fuel length nodes hne hround hsub =>
    have hpos := parseField_pos hround fun hkind hnone => hnot ⟨hne, hkind, hnone⟩
    have hlength := substring_ok hsub
    have htrimmed := length_trimStart_le capture
    have hshorter : rest.length < capture.length := by
      change 0 < length at hpos
      omega
    exact lex_of_le (max_le_max_left _ hshorter.le) hshorter
  | @body type hasDefault hasDefault' item items s value hopened =>
    apply Prod.Lex.left
    rw [max_self]
    exact lt_max_of_lt_left (Nat.lt_succ_self _)
  | @case type hasDefault hasDefault' item items s t value fuel nodes hopened hbody =>
    exact lex_of_le (le_max_right _ _) (Nat.lt_succ_self _)
  | @frame substr rest s t entry m path links hentry hscheme hframe hsub hm hopened =>
    have houter := firstBraced_lengths hentry
    have hinner := firstBraced_lengths hm
    apply Prod.Lex.left
    rw [max_self]
    omega
  | @entry substr rest s t entry fuel nodes hentry hround =>
    apply Prod.Lex.left
    exact parseEntry_lt hentry (fun hneither => hnot ⟨entry, hentry, hneither⟩) hround

/-! ### The whole file -/

theorem not_ends_of_stalled {p : Position} (h : Stalled env p) : ¬ p.Ends env := by
  cases p with
  | file substr s =>
    intro ⟨fuel, hends⟩
    exact hends (fromText_stalled h fuel)
  | fields input capture s =>
    intro ⟨fuel, hends⟩
    exact hends (parseFields_stalled h fuel)
  | cases type hasDefault items s => exact fun _ => h

theorem ends_step {p : Position} (hnot : ¬ Stalled env p) :
    p.Ends env ↔ ∀ q, After env p q → q.Ends env := by
  cases p with
  | file substr s => exact file_step hnot
  | fields input capture s => exact fields_step hnot
  | cases type hasDefault items s => exact cases_step

theorem position_ends_iff (env : TextEnvironment) (p : Position) :
    p.Ends env ↔ ∀ q, ReflTransGen (After env) p q → ¬ Stalled env q :=
  ends_iff_not_stalled (WellFounded.prod_lex wellFounded_lt wellFounded_lt)
    (fun _ => not_ends_of_stalled) (fun _ => ends_step) (fun _ _ => rank_after) p

/-- `FromFileAsync` returns or throws just when no round it comes to leaves everything as it is. -/
theorem fromFile_ends_iff (env : TextEnvironment) (str : Str) :
    (∃ fuel, fromFile env fuel str ≠ .error .diverges) ↔
      ∀ p, ReflTransGen (After env) (.file str .new) p → ¬ Stalled env p := by
  rw [← position_ends_iff]
  apply exists_congr
  intro fuel
  apply not_congr
  change fromFile env fuel str = _ ↔ fromText env fuel str .new = _
  unfold fromFile
  cases fromText env fuel str .new with
  | error halt =>
    constructor
    · intro h
      exact congrArg Except.error (Except.error.inj h)
    · intro h
      exact congrArg Except.error (Except.error.inj h)
  | ok built => exact iff_of_false nofun nofun

/-- A blank in front of the first frame, and it stays there for ever. -/
theorem not_fromFile_ends :
    ¬ ∀ str, ∃ fuel, fromFile .ordinal fuel str ≠ .error .diverges := by
  intro h
  obtain ⟨fuel, hends⟩ := h (ascii " Frame:F\x7b\x7d")
  have hstalled : Stalled .ordinal (.file (ascii " Frame:F\x7b\x7d") .new) :=
    ⟨⟨ascii " Frame:F\x7b\x7d", ascii " Frame:F", []⟩, by decide, by decide, by decide⟩
  apply hends
  unfold fromFile
  rw [fromText_stalled hstalled fuel]
  rfl

end TextImporter

end DecodingProxy.MappedFrameReader
