import DecodingProxy.MappedFrameReader.ImportEnds

/-!
# The importer of texts and the importer of entries

What the importer makes of a text, `SchemeImporter.fromEntries` makes of some entries: the results
about entries are results about texts. The types of frames keep the white space behind their names,
and that of entries do not, so this is said of files whose names of frames have none.
-/

namespace DecodingProxy.MappedFrameReader
open DecodingProxy.Runs DecodingProxy.Runtime SchemeText Relation

theorem Chain.ofNodes_append (ns : List Node) (c d : Chain) :
    (Chain.ofNodes ns c).append d = .ofNodes ns (c.append d) := by
  induction ns with
  | nil => rfl
  | cons n ns ih => exact congrArg (Chain.node n) ih

theorem Chain.append_assoc : (c d e : Chain) → (c.append d).append e = c.append (d.append e)
  | .null, _, _ => rfl
  | .node n tail, d, e => congrArg (Chain.node n) (Chain.append_assoc tail d e)
  | .switch path cases tail, d, e =>
    congrArg (Chain.switch path cases) (Chain.append_assoc tail d e)

namespace TextImporter

/-! ### Linked values -/

/-- The nodes of some linked values. -/
def Linked (s : SchemeImporter) (ns : List Node) : Prop := ∃ paths, s.parseLinks paths = .ok ns

variable {env : TextEnvironment} {s t : SchemeImporter} {ns : List Node} {path : String}

theorem Linked.nil (s : SchemeImporter) : Linked s [] := ⟨[], rfl⟩

theorem Linked.one {type : DefinedType} (h : s.getValuePromise path = .ok type) :
    Linked s [.readFromLinked path] := by
  refine ⟨[path], ?_⟩
  rw [SchemeImporter.parseLinks, do_of_ok h]
  rfl

theorem Linked.append {ms : List Node} (hns : Linked s ns) (hms : Linked s ms) :
    Linked s (ns ++ ms) := by
  obtain ⟨paths, hpaths⟩ := hns
  obtain ⟨others, hothers⟩ := hms
  refine ⟨paths ++ others, ?_⟩
  induction paths generalizing ns with
  | nil =>
    cases hpaths
    exact hothers
  | cons first paths ih =>
    obtain ⟨type, htype, hpaths⟩ := do_ok_iff.mp hpaths
    obtain ⟨rest, hrest, heq⟩ := do_ok_iff.mp hpaths
    cases heq
    rw [List.cons_append, SchemeImporter.parseLinks, do_of_ok htype, do_of_ok (ih hrest)]
    rfl

theorem readLinked_linked {link : Str} (h : readLinked link s = .ok ns) : Linked s ns := by
  obtain ⟨type, htype, rfl⟩ := map_ok_iff.mp h
  exact .one htype

theorem parseAttribute_linked {input : Str} {atr : Attribute × List Node}
    (h : parseAttribute input s = .ok atr) : Linked s atr.2 := by
  obtain ⟨inner, -, h⟩ := do_ok_iff.mp h
  obtain ⟨value, -, h⟩ := do_ok_iff.mp h
  obtain ⟨name, -, h⟩ := do_ok_iff.mp h
  obtain ⟨kind, -, h⟩ := do_ok_iff.mp h
  split at h
  · obtain ⟨type, htype, h⟩ := do_ok_iff.mp h
    cases h
    exact .one htype
  · split at h
    · cases h
    · obtain ⟨valueInt, -, h⟩ := do_ok_iff.mp h
      cases h
      exact .nil s
    · obtain ⟨sizeType, -, h⟩ := do_ok_iff.mp h
      cases h
      exact .nil s
    · cases h
      exact .nil s
    · cases h
      exact .nil s
    · cases h
      exact .nil s

theorem parseAttributes_linked {inputs : List Str} {attributes : List Attribute × List Node}
    (h : parseAttributes s inputs = .ok attributes) : Linked s attributes.2 := by
  induction inputs generalizing attributes with
  | nil =>
    cases h
    exact .nil s
  | cons input inputs ih =>
    obtain ⟨first, hfirst, h⟩ := do_ok_iff.mp h
    obtain ⟨rest, hrest, h⟩ := do_ok_iff.mp h
    cases h
    exact (parseAttribute_linked hfirst).append (ih hrest)

theorem readMeta_linked {ofNone : ExceptionType} {inputs : List Str} {words : Meta}
    {r : Meta × List Node} (h : readMeta ofNone s inputs words = .ok r) : Linked s r.2 := by
  induction inputs generalizing words r with
  | nil =>
    cases h
    exact .nil s
  | cons input inputs ih =>
    obtain ⟨atr, hatr, h⟩ := do_ok_iff.mp h
    have hnext : ∃ changed, (readMeta ofNone s inputs changed >>= fun rest =>
        Except.ok (rest.1, atr.2 ++ rest.2)) = .ok r := by
      dsimp only at h
      split at h
      · cases h
      · exact ⟨_, h⟩
      · exact ⟨_, h⟩
      · cases h
    obtain ⟨changed, h⟩ := hnext
    obtain ⟨rest, hrest, h⟩ := do_ok_iff.mp h
    cases h
    exact (parseAttribute_linked hatr).append (ih hrest)

theorem parseMeta_linked {ofNone : ExceptionType} {value : Str} {r : Meta × List Node}
    (h : parseMeta ofNone value s = .ok r) : Linked s r.2 := by
  unfold parseMeta at h
  split at h
  · cases h
  · exact readMeta_linked h

theorem linkedLength_linked {lengthControl : Str} (h : linkedLength lengthControl s = .ok ns) :
    Linked s ns := by
  unfold linkedLength at h
  split_ifs at h
  · obtain ⟨link, -, h⟩ := do_ok_iff.mp h
    exact readLinked_linked h
  · cases h
    exact .nil s

theorem linkedCount_linked {lengthControl : Str} (h : linkedCount lengthControl s = .ok ns) :
    Linked s ns := by
  unfold linkedCount at h
  split_ifs at h
  · exact readLinked_linked h
  · cases h
    exact .nil s

/-! ### Fields without a body -/

/-- A reading that is left open is none at all. -/
def IsReading (env : TextEnvironment) (path : String) (r : List Node × ResultMode) : Prop :=
  r = ([], .none) ∨ ∃ reading, SchemeImporter.parseReading env.toEnvironment path reading = .ok r

theorem getFunc_ok {valueString : Option Str} {func : Func}
    (h : getFunc env valueString = .ok func) :
    ∃ id, SchemeImporter.getFunc env.toEnvironment id = .ok func := by
  obtain ⟨id, -, h⟩ := do_ok_iff.mp h
  exact ⟨_, h⟩

theorem stringCompare_isReading {condType condValue : Attribute} {r : List Node × ResultMode}
    (h : stringCompare env path condType condValue = .ok r) : IsReading env path r := by
  unfold stringCompare at h
  split_ifs at h
  obtain ⟨condition, -, h⟩ := do_ok_iff.mp h
  dsimp only at h
  split_ifs at h
  · obtain ⟨value, -, h⟩ := do_ok_iff.mp h
    obtain ⟨inner, -, h⟩ := do_ok_iff.mp h
    obtain ⟨unescaped, -, h⟩ := do_ok_iff.mp h
    cases h
    exact .inr ⟨.closedBy _, rfl⟩
  · obtain ⟨func, -, rfl⟩ := map_ok_iff.mp h
    exact .inl rfl
  · cases h
    exact .inl rfl

theorem conditionReading_isReading {attributes : List Attribute} {r : List Node × ResultMode}
    (h : conditionReading env path attributes = .ok r) : IsReading env path r := by
  unfold conditionReading at h
  split at h
  · cases h
    exact .inl rfl
  · split at h
    · cases h
    · split at h
      · cases h
        exact .inl rfl
      · split_ifs at h
        · exact stringCompare_isReading h
        · obtain ⟨func, hfunc, rfl⟩ := map_ok_iff.mp h
          obtain ⟨id, hid⟩ := getFunc_ok hfunc
          exact .inr ⟨.func id, map_ok_iff.mpr ⟨func, hid, rfl⟩⟩
        · cases h
          exact .inl rfl

theorem fieldReading_isReading {length : ℤ} {isLinked isCondition : Bool} {inputs : List Str}
    {r : List Node × ResultMode}
    (h : fieldReading env path length isLinked isCondition inputs s = .ok r) :
    ∃ links reading, Linked s links ∧ IsReading env path reading ∧
      r = (links ++ reading.1, reading.2) := by
  unfold fieldReading at h
  split_ifs at h
  · cases h
    exact ⟨[], _, .nil s, .inr ⟨.fixed length, rfl⟩, rfl⟩
  · obtain ⟨attributes, hattributes, h⟩ := do_ok_iff.mp h
    obtain ⟨reading, hreading, h⟩ := do_ok_iff.mp h
    cases h
    refine ⟨attributes.2, reading, parseAttributes_linked hattributes, ?_, rfl⟩
    unfold attributesReading at hreading
    split_ifs at hreading
    · exact conditionReading_isReading hreading
    · cases hreading
      exact .inl rfl
    · obtain ⟨_, -, rfl⟩ := map_ok_iff.mp hreading
      exact .inr ⟨.fixed length, rfl⟩

theorem parseFieldTyped_refines {input : Str} {type : DefinedType} {n : ℕ}
    (h : parseFieldTyped env input type s = .ok (n, ns, t)) :
    ∃ field, SchemeImporter.parseFieldTyped env.toEnvironment field s = .ok (ns, t) := by
  obtain ⟨before, -, h⟩ := do_ok_iff.mp h
  obtain ⟨fieldControl, -, h⟩ := do_ok_iff.mp h
  obtain ⟨lengthControl, -, h⟩ := do_ok_iff.mp h
  obtain ⟨definedType, htype, h⟩ := do_ok_iff.mp h
  obtain ⟨u, hvariable, h⟩ := do_ok_iff.mp h
  obtain ⟨links, hlinks, h⟩ := do_ok_iff.mp h
  obtain ⟨length, -, h⟩ := do_ok_iff.mp h
  obtain ⟨read, hread, h⟩ := do_ok_iff.mp h
  obtain ⟨others, reading, hothers, hreading, rfl⟩ := fieldReading_isReading hread
  obtain ⟨paths, hpaths⟩ := (linkedLength_linked hlinks).append hothers
  generalize nameOf (if dollar ∈ fieldControl then
    Str.trimStart (Str.trimOf (· = dollar) fieldControl) else fieldControl) = path at *
  have hdebug : ∃ read, SchemeImporter.parseReading env.toEnvironment path read = .ok reading := by
    rcases hreading with rfl | hreading
    · refine ⟨.unspecified, ?_⟩
      cases hmode : env.debug with
      | true =>
        simp only [hmode] at h
        cases h
      | false =>
        unfold SchemeImporter.parseReading
        rw [hmode]
        rfl
    · exact hreading
  obtain ⟨read, hread⟩ := hdebug
  refine ⟨{ typeName := type.name, path, links := paths, reading := read }, ?_⟩
  unfold SchemeImporter.parseFieldTyped
  rw [do_of_ok htype, do_of_ok hvariable, do_of_ok hpaths, do_of_ok hread]
  split at h
  · cases h
  · cases h
    simp only [List.append_assoc, List.cons_append]

theorem vectorMode_refines {lengthControl : Str} {attributes : List Attribute} {mode : RepeatMode}
    (h : vectorMode env lengthControl attributes = .ok mode) :
    ∃ repeating, SchemeImporter.parseRepeating env.toEnvironment repeating = .ok mode := by
  unfold vectorMode at h
  split_ifs at h
  obtain ⟨advance, -, h⟩ := do_ok_iff.mp h
  obtain ⟨condType, -, h⟩ := do_ok_iff.mp h
  obtain ⟨value, -, h⟩ := do_ok_iff.mp h
  obtain ⟨isRepeat, -, h⟩ := do_ok_iff.mp h
  split_ifs at h
  · split at h
    · split_ifs at h
      cases h
      exact ⟨.node, rfl⟩
    · obtain ⟨separator, -, h⟩ := do_ok_iff.mp h
      obtain ⟨enclose, -, h⟩ := do_ok_iff.mp h
      obtain ⟨encloseText, -, h⟩ := do_ok_iff.mp h
      obtain ⟨separatorText, -, h⟩ := do_ok_iff.mp h
      cases h
      exact ⟨.separated _ _, rfl⟩
  · obtain ⟨func, hfunc, rfl⟩ := map_ok_iff.mp h
    obtain ⟨id, hid⟩ := getFunc_ok hfunc
    exact ⟨.func id, map_ok_iff.mpr ⟨func, hid, rfl⟩⟩

theorem parseVector_refines {input : Str} {n : ℕ}
    (h : parseVector env input s = .ok (n, ns, t)) :
    ∃ field, SchemeImporter.parseVector env.toEnvironment field s = .ok (ns, t) := by
  obtain ⟨before, -, h⟩ := do_ok_iff.mp h
  obtain ⟨capture, -, h⟩ := do_ok_iff.mp h
  obtain ⟨words, -, h⟩ := do_ok_iff.mp h
  obtain ⟨typeName, -, h⟩ := do_ok_iff.mp h
  obtain ⟨fieldControl, -, h⟩ := do_ok_iff.mp h
  obtain ⟨type, htype, h⟩ := do_ok_iff.mp h
  obtain ⟨u, hsource, h⟩ := do_ok_iff.mp h
  obtain ⟨lengthControl, -, h⟩ := do_ok_iff.mp h
  obtain ⟨attributes, hattributes, h⟩ := do_ok_iff.mp h
  obtain ⟨valid, -, h⟩ := do_ok_iff.mp h
  obtain ⟨links, hlinks, h⟩ := do_ok_iff.mp h
  obtain ⟨v, hvariable, h⟩ := do_ok_iff.mp h
  obtain ⟨mode, hmode, h⟩ := do_ok_iff.mp h
  obtain ⟨paths, hpaths⟩ := (parseAttributes_linked hattributes).append (linkedCount_linked hlinks)
  obtain ⟨repeating, hrepeating⟩ := vectorMode_refines hmode
  generalize nameOf (if decide (dollar ∈ fieldControl) = true then
    Str.trimStart (Str.trimStartOf (· = dollar) fieldControl) else fieldControl) = path at *
  cases h
  let field : FieldVector :=
    { typeName := nameOf typeName, path := path, isSource := decide (dollar ∈ fieldControl),
      links := paths, repeating := repeating }
  have hcreated : s.createSource field type = .ok u := hsource
  refine ⟨field, ?_⟩
  unfold SchemeImporter.parseVector
  rw [do_of_ok htype, do_of_ok hcreated, do_of_ok hpaths, do_of_ok hvariable,
    do_of_ok hrepeating, List.append_assoc]

/-! ### Bodies -/

/-- The nodes are those of a field in front of any others. -/
def Stands (env : TextEnvironment) (nodes : Chain) (s t : SchemeImporter) : Prop :=
  ∃ place : Fields → Fields, ∀ rest chain u,
    SchemeImporter.parseFields env.toEnvironment rest t = .ok (chain, u) →
      SchemeImporter.parseFields env.toEnvironment (place rest) s = .ok (nodes.append chain, u)

def Refines (env : TextEnvironment) (parseBody : ParseBody) : Prop :=
  ∀ body s built, parseBody body s = .ok built →
    ∃ fields, SchemeImporter.parseFields env.toEnvironment fields s = .ok built

theorem openSwitch_promise {m : Braced} {opened : String × DefinedType}
    (h : openSwitch m s = .ok opened) : s.getValuePromise opened.1 = .ok opened.2 := by
  unfold openSwitch at h
  dsimp only at h
  split_ifs at h
  obtain ⟨idVar, -, h⟩ := do_ok_iff.mp h
  obtain ⟨type, htype, h⟩ := do_ok_iff.mp h
  cases h
  exact htype

section Bodies

variable {parseBody : ParseBody} (hbody : Refines env parseBody) {n : ℕ} {nodes : Chain}
include hbody

theorem parseItem_stands {str : Str} (h : parseItem parseBody str s = .ok (n, nodes, t)) :
    Stands env nodes s t := by
  unfold parseItem at h
  split at h
  · cases h
    exact ⟨id, fun _ _ _ hrest => hrest⟩
  · rename_i m hm
    obtain ⟨opened, hopened, h⟩ := do_ok_iff.mp h
    obtain ⟨itemMeta, hmeta, hopened⟩ := do_ok_iff.mp (mapError_ok_iff.mp hopened)
    obtain ⟨type, htype, hopened⟩ := do_ok_iff.mp hopened
    obtain ⟨u, hvariable, hopened⟩ := do_ok_iff.mp hopened
    cases hopened
    obtain ⟨body, hparsed, h⟩ := do_ok_iff.mp h
    cases h
    obtain ⟨paths, hpaths⟩ := parseMeta_linked hmeta
    obtain ⟨fields, hfields⟩ := hbody _ _ _ hparsed
    refine ⟨.item (nameOf itemMeta.1.name) paths fields, ?_⟩
    intro rest chain v hrest
    rw [SchemeImporter.parseFields, do_of_ok hpaths, do_of_ok htype, do_of_ok hvariable,
      do_of_ok hfields, do_of_ok hrest, Chain.ofNodes_append, Chain.append_assoc,
      Chain.ofNodes_append]
    rfl

theorem parseCases_refines {type : DefinedType} {hasDefault : Bool} {items : List SwitchCase}
    {cases : Cases} (h : parseCases env parseBody type hasDefault items s = .ok (cases, t)) :
    ∃ fieldCases, SchemeImporter.parseCases env.toEnvironment type hasDefault fieldCases s =
      .ok (cases, t) := by
  induction items generalizing hasDefault s cases with
  | nil =>
    cases h
    exact ⟨.done, rfl⟩
  | cons item items ih =>
    obtain ⟨opened, hopened, h⟩ := do_ok_iff.mp h
    obtain ⟨value, -, hopened⟩ := do_ok_iff.mp (mapError_ok_iff.mp hopened)
    obtain ⟨added, hadded, hopened⟩ := do_ok_iff.mp hopened
    cases hopened
    obtain ⟨body, hparsed, h⟩ := do_ok_iff.mp h
    obtain ⟨rest, hrest, h⟩ := do_ok_iff.mp h
    cases h
    obtain ⟨fields, hfields⟩ := hbody _ _ _ hparsed
    obtain ⟨fieldCases, hcases⟩ := ih hrest
    refine ⟨.case value fields fieldCases, ?_⟩
    rw [SchemeImporter.parseCases, do_of_ok hadded, do_of_ok hfields, do_of_ok hcases]

theorem parseSwitch_stands {input : Str}
    (h : parseSwitch env parseBody input s = .ok (n, nodes, t)) : Stands env nodes s t := by
  unfold parseSwitch at h
  split at h
  · cases h
  · rename_i m hm
    obtain ⟨opened, hopened, h⟩ := do_ok_iff.mp h
    have hpromise := openSwitch_promise (mapError_ok_iff.mp hopened)
    obtain ⟨cases, hparsed, h⟩ := do_ok_iff.mp h
    cases h
    obtain ⟨fieldCases, hcases⟩ := parseCases_refines hbody hparsed
    refine ⟨.switch opened.1 fieldCases, ?_⟩
    intro rest chain v hrest
    rw [SchemeImporter.parseFields, do_of_ok hpromise, do_of_ok hcases, do_of_ok hrest]
    rfl

theorem parseField_stands {input capture : Str}
    (h : parseField env parseBody input capture s = .ok (n, nodes, t)) : Stands env nodes s t := by
  obtain ⟨kind, hkind, h⟩ := do_ok_iff.mp h
  cases kind with
  | typed type =>
    obtain ⟨field, hfield, h⟩ := do_ok_iff.mp h
    cases h
    obtain ⟨typed, htyped⟩ := parseFieldTyped_refines (mapError_ok_iff.mp hfield)
    refine ⟨.typed typed, ?_⟩
    intro rest chain u hrest
    rw [SchemeImporter.parseFields, do_of_ok htyped, do_of_ok hrest, Chain.ofNodes_append]
    rfl
  | vector =>
    obtain ⟨field, hfield, h⟩ := do_ok_iff.mp h
    cases h
    obtain ⟨vector, hvector⟩ := parseVector_refines (mapError_ok_iff.mp hfield)
    refine ⟨.vector vector, ?_⟩
    intro rest chain u hrest
    rw [SchemeImporter.parseFields, do_of_ok hvector, do_of_ok hrest, Chain.ofNodes_append]
    rfl
  | item => exact parseItem_stands hbody h
  | switch => exact parseSwitch_stands hbody h
  | unknown => cases h

end Bodies

/-- What `ParseFields` makes of the text of a body, it makes of some fields. -/
theorem parseFields_refines {fuel : ℕ} {input capture : Str} {built : Built}
    (h : parseFields env fuel input capture s = .ok built) :
    ∃ fields, SchemeImporter.parseFields env.toEnvironment fields s = .ok built := by
  induction fuel generalizing input capture s built with
  | zero => cases h
  | succ fuel ih =>
    rw [parseFields] at h
    dsimp only at h
    split_ifs at h
    · cases h
      exact ⟨.done, rfl⟩
    · obtain ⟨field, hfield, h⟩ := do_ok_iff.mp h
      obtain ⟨capture, -, h⟩ := do_ok_iff.mp h
      obtain ⟨rest, hrest, h⟩ := do_ok_iff.mp h
      cases h
      obtain ⟨fields, hfields⟩ := ih hrest
      obtain ⟨place, hplace⟩ := parseField_stands (fun _ _ _ hbody => ih hbody) hfield
      exact ⟨place fields, hplace fields rest.1 rest.2 hfields⟩

/-! ### Files -/

/-- The name of the first frame of the text has no white space at its ends. -/
def TrimmedName (substr : Str) (s : SchemeImporter) : Prop :=
  ∀ entry m frameMeta, regexEntry substr = some entry → regexFrame entry.value = some m →
    parseFrameMeta m.head s = .ok frameMeta → Str.trim frameMeta.1.name = frameMeta.1.name

/-- No frame that the importer comes to has one with white space. -/
def TrimmedNames (env : TextEnvironment) (substr : Str) (s : SchemeImporter) : Prop :=
  ∀ rest t, ReflTransGen (After env) (.file substr s) (.file rest t) → TrimmedName rest t

theorem parseFrame_refines {parseBody : ParseBody} (hbody : Refines env parseBody)
    {entry : Braced} {substr rest : Str} {nodes : Chain} (hentry : regexEntry substr = some entry)
    (htrimmed : TrimmedName substr s)
    (h : parseFrame parseBody entry.value substr s = .ok (rest, nodes, t)) :
    ∃ path paths fields,
      SchemeImporter.parseFrame env.toEnvironment path paths fields s = .ok (nodes, t) := by
  obtain ⟨left, -, h⟩ := do_ok_iff.mp h
  split at h
  · cases h
  · rename_i m hm
    obtain ⟨opened, hopened, h⟩ := do_ok_iff.mp h
    obtain ⟨frameMeta, hmeta, hopened⟩ := do_ok_iff.mp (mapError_ok_iff.mp hopened)
    have hname := htrimmed entry m frameMeta hentry hm hmeta
    obtain ⟨type, htype, hopened⟩ := do_ok_iff.mp hopened
    obtain ⟨u, hvariable, hopened⟩ := do_ok_iff.mp hopened
    rw [hname] at hvariable hopened
    cases hopened
    obtain ⟨body, hparsed, h⟩ := do_ok_iff.mp h
    cases h
    obtain ⟨paths, hpaths⟩ := parseMeta_linked hmeta
    obtain ⟨fields, hfields⟩ := hbody _ _ _ hparsed
    refine ⟨nameOf frameMeta.1.name, paths, fields, ?_⟩
    unfold SchemeImporter.parseFrame
    rw [do_of_ok hpaths, do_of_ok htype, do_of_ok hvariable, do_of_ok hfields]

theorem parseScheme_nodes {substr : Str} {m : Braced} {r : Str × List Node}
    (h : parseScheme env substr m = .ok r) :
    ∃ name, r.2 = [.schemeBegin name, .schemeEnd name] := by
  obtain ⟨left, -, h⟩ := do_ok_iff.mp h
  obtain ⟨keyword, -, h⟩ := do_ok_iff.mp h
  obtain ⟨name, -, h⟩ := do_ok_iff.mp h
  split_ifs at h
  obtain ⟨instructions, -, h⟩ := do_ok_iff.mp h
  cases h
  exact ⟨nameOf (Str.trim name), rfl⟩

theorem fromText_refines {fuel : ℕ} {substr : Str} {built : Built}
    (htrimmed : TrimmedNames env substr s) (h : fromText env fuel substr s = .ok built) :
    ∃ entries, SchemeImporter.parseEntries env.toEnvironment entries s = .ok built := by
  induction fuel generalizing substr s built with
  | zero => cases h
  | succ fuel ih =>
    rw [fromText] at h
    cases hentry : regexEntry substr with
    | none =>
      rw [hentry] at h
      cases h
      exact ⟨[], rfl⟩
    | some entry =>
      rw [hentry] at h
      obtain ⟨⟨left, nodes, u⟩, hread, h⟩ := do_ok_iff.mp h
      obtain ⟨rest, hrest, h⟩ := do_ok_iff.mp h
      cases h
      have hafter : After env (.file substr s) (.file left u) := .entry hentry hread
      obtain ⟨entries, hentries⟩ := ih
        (fun later v hreaches => htrimmed later v (hreaches.head hafter)) hrest
      unfold parseEntry at hread
      split_ifs at hread
      · obtain ⟨scheme, hscheme, hread⟩ := do_ok_iff.mp hread
        cases hread
        obtain ⟨name, hname⟩ := parseScheme_nodes (mapError_ok_iff.mp hscheme)
        refine ⟨.scheme name :: entries, ?_⟩
        rw [SchemeImporter.parseEntries, do_of_ok hentries, hname, Chain.ofNodes_append]
        rfl
      · obtain ⟨path, paths, fields, hframe⟩ := parseFrame_refines
          (fun _ _ _ hbody => parseFields_refines hbody) hentry (htrimmed substr s .refl) hread
        refine ⟨.frame path paths fields :: entries, ?_⟩
        rw [SchemeImporter.parseEntries, do_of_ok hframe, do_of_ok hentries]
      · cases hread
        exact ⟨entries, hentries⟩

theorem fromFile_refines {fuel : ℕ} {str : Str} {chain : Chain}
    (htrimmed : TrimmedNames env str .new) (h : fromFile env fuel str = .ok chain) :
    ∃ entries, SchemeImporter.fromEntries env.toEnvironment entries = .ok chain := by
  obtain ⟨built, hbuilt, rfl⟩ := map_ok_iff.mp h
  obtain ⟨entries, hentries⟩ := fromText_refines htrimmed hbuilt
  exact ⟨entries, map_ok_iff.mpr ⟨built, hentries, rfl⟩⟩

end TextImporter

end DecodingProxy.MappedFrameReader
