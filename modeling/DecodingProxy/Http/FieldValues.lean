import DecodingProxy.Http.HttpFieldsV11
import DecodingProxy.Lib.Runs
import Mathlib.Data.List.TakeWhile

/-!
# The values that `ParseLines` keeps

A line is split at all its colons and the second piece is kept, so that of a value with a colon
only the part before the colon stays. White space around the value stays as it is.
-/

namespace DecodingProxy.Http
open DecodingProxy.Runtime DecodingProxy.Runs
open ConstantsForHttp

/-- A field name, a colon and a value with white space around it, the line end with it. -/
structure FieldLine where
  name : Str
  before : Str
  value : Str
  after : Str
  not_colon : 0x3A ∉ name
  white : ∀ c ∈ before ++ after, Str.isWhite c = true
  trimmed : ∀ c, value.head? = some c ∨ value.getLast? = some c → Str.isWhite c = false

namespace FieldLine

/-- All that stands behind the colon. -/
def behind (l : FieldLine) : Str := l.before ++ (l.value ++ l.after)

def text (l : FieldLine) : Str := l.name ++ 0x3A :: l.behind

end FieldLine

/-- A start line that fits the kind of the object. -/
def IsStartLine (f : HttpFieldsV11) (startLine : Str) : Prop :=
  if f.isResponse then
    ∃ version status text z, 0x20 ∉ version ∧ 0x20 ∉ status ∧ Str.parseInt status = .ok z ∧
      startLine = version ++ 0x20 :: (status ++ 0x20 :: text)
  else if f.isRequest then
    ∃ method target version, 0x20 ∉ method ∧ 0x20 ∉ target ∧
      startLine = method ++ 0x20 :: (target ++ 0x20 :: version)
  else True

/-- An object that has the lines of a header block, and no value yet. -/
structure HeaderLines where
  object : HttpFieldsV11
  startLine : Str
  fields : List FieldLine
  lastLine : Str
  lines : object.lines = startLine :: fields.map FieldLine.text ++ [lastLine]
  fresh : object.valuePerFieldName = ∅
  start : IsStartLine object startLine

namespace HeaderLines

/-- The last occurrence of a field. -/
def lastField (h : HeaderLines) (name : Str) : Option FieldLine :=
  h.fields.reverse.find? (·.name = name)

/-- The call returns, and the dictionary has the last value of each field and nothing else. -/
def Faithful (p : Platform) (h : HeaderLines) (value : FieldLine → Str) : Prop :=
  ∃ f, h.object.parseLines p = .ok f ∧
    ∀ name, AList.lookup name f.valuePerFieldName = (h.lastField name).map value

end HeaderLines

/-- What the branches for single fields need: a `Host` behind which a single colon stands in front
of an `int`, and lines that are as long as the text they contain. -/
def FieldReadable (p : Platform) (field : Str) : Prop :=
  let contains := p.culture.containsIgnoreCase field
  if contains SUBSTRING_HOST then
    6 ≤ field.length ∧ ∀ address port, Str.split 0x3A (field.drop 6) = [address, port] →
      ∃ z, Str.parseInt port = .ok z
  else if contains SUBSTRING_CONNECTION then 12 ≤ field.length
  else if contains SUBSTRING_PROXY_CONNECTION then 18 ≤ field.length
  else if contains KEEP_ALIVE_FIELD then True
  else if contains SUBSTRING_CONTENT_TYPE then True
  else contains FIELD_TRANSFER_ENCODING → 19 ≤ field.length

/-! ### One line -/

theorem substring_ok_iff {startIndex : ℕ} {s t : Str} :
    Str.substring startIndex s = .ok t ↔ startIndex ≤ s.length ∧ t = s.drop startIndex := by
  unfold Str.substring
  split_ifs with hshort
  · constructor
    · nofun
    · intro ⟨hle, _⟩
      omega
  · constructor
    · intro h
      cases h
      exact ⟨by omega, rfl⟩
    · intro ⟨_, heq⟩
      rw [heq]

namespace HttpFieldsV11

/-- The call is `ok` just under the condition, and keeps the dictionary. -/
def ReturnsIf (x : Except Fault HttpFieldsV11) (condition : Prop)
    (values : Dictionary Str Str) : Prop :=
  (∀ f, x = .ok f → condition ∧ f.valuePerFieldName = values) ∧ (condition → ∃ f, x = .ok f)

theorem returnsIf_substring {startIndex : ℕ} {field : Str} {values : Dictionary Str Str}
    {f : Str → HttpFieldsV11} (hf : ∀ s, (f s).valuePerFieldName = values) :
    ReturnsIf (Str.substring startIndex field >>= fun s => .ok (f s))
      (startIndex ≤ field.length) values := by
  constructor
  · intro g hg
    obtain ⟨s, hs, hg⟩ := do_ok_iff.mp hg
    cases hg
    exact ⟨(substring_ok_iff.mp hs).1, hf s⟩
  · intro hle
    exact ⟨_, do_of_ok (substring_ok_iff.mpr ⟨hle, rfl⟩)⟩

theorem returnsIf_true {f : HttpFieldsV11} {values : Dictionary Str Str}
    (hf : f.valuePerFieldName = values) : ReturnsIf (.ok f) True values := by
  constructor
  · intro g hg
    cases hg
    exact ⟨trivial, hf⟩
  · intro _
    exact ⟨f, rfl⟩

theorem returnsIf_host (field : Str) (f : HttpFieldsV11) :
    ReturnsIf (f.parseHost field)
      (6 ≤ field.length ∧ ∀ address port, Str.split 0x3A (field.drop 6) = [address, port] →
        ∃ z, Str.parseInt port = .ok z) f.valuePerFieldName := by
  unfold parseHost
  by_cases hle : 6 ≤ field.length
  · rw [do_of_ok (substring_ok_iff.mpr ⟨hle, rfl⟩)]
    dsimp only
    split
    case h_1 address port hsplit =>
      constructor
      · intro g hg
        obtain ⟨z, hz, hg⟩ := do_ok_iff.mp hg
        cases hg
        refine ⟨⟨hle, fun a b heq => ?_⟩, rfl⟩
        rw [hsplit] at heq
        cases heq
        exact ⟨z, hz⟩
      · intro hcondition
        obtain ⟨z, hz⟩ := hcondition.2 address port hsplit
        exact ⟨_, do_of_ok hz⟩
    case h_2 hother =>
      constructor
      · intro g hg
        cases hg
        exact ⟨⟨hle, fun address port heq => absurd heq (hother address port)⟩, rfl⟩
      · intro _
        exact ⟨_, rfl⟩
  · constructor
    · intro g hg
      obtain ⟨s, hs, -⟩ := do_ok_iff.mp hg
      exact absurd (substring_ok_iff.mp hs).1 hle
    · intro hcondition
      exact absurd hcondition.1 hle

/-- What is kept of a line: the text up to the next colon. -/
def kept (l : FieldLine) : Str := l.behind.takeWhile (· ≠ 0x3A)

theorem returnsIf_field (p : Platform) (f : HttpFieldsV11) (l : FieldLine) :
    ReturnsIf (parseField p f l.text) (FieldReadable p l.text)
      (AList.insert l.name (kept l) f.valuePerFieldName) := by
  have hsplit : Str.split 0x3A l.text = l.name :: Str.split 0x3A l.behind :=
    Str.split_append l.not_colon _
  have hname : Str.item (Str.split 0x3A l.text) 0 = .ok l.name := by
    rw [hsplit]
    rfl
  have hvalue : Str.item (Str.split 0x3A l.text) 1 = .ok (kept l) := by
    have hhead := Str.head?_split 0x3A l.behind
    rw [hsplit, Str.item, List.getElem?_cons_succ, ← List.head?_eq_getElem?, hhead]
    rfl
  unfold parseField FieldReadable
  simp only [do_of_ok hname, do_of_ok hvalue]
  split_ifs
  · exact returnsIf_host l.text _
  · exact returnsIf_substring fun _ => rfl
  · exact returnsIf_substring fun _ => rfl
  · exact returnsIf_true rfl
  · exact returnsIf_true rfl
  case pos htransfer =>
    have hiff : 19 ≤ l.text.length ↔
        (p.culture.containsIgnoreCase l.text FIELD_TRANSFER_ENCODING = true →
          19 ≤ l.text.length) := ⟨fun hle _ => hle, fun h => h htransfer⟩
    rw [← hiff]
    exact returnsIf_substring fun _ => rfl
  case neg htransfer =>
    have hiff : True ↔ (p.culture.containsIgnoreCase l.text FIELD_TRANSFER_ENCODING = true →
        19 ≤ l.text.length) := ⟨fun _ h => absurd h htransfer, fun _ => trivial⟩
    rw [← hiff]
    exact returnsIf_true rfl

/-- Of every field the last value that was kept is in the dictionary. -/
theorem returnsIf_fields (p : Platform) (ls : List FieldLine) (f : HttpFieldsV11) :
    (∀ g, (ls.map FieldLine.text).foldlM (parseField p) f = .ok g →
      (∀ l ∈ ls, FieldReadable p l.text) ∧
        ∀ name, AList.lookup name g.valuePerFieldName =
          ((ls.reverse.find? (·.name = name)).map kept).or
            (AList.lookup name f.valuePerFieldName)) ∧
      ((∀ l ∈ ls, FieldReadable p l.text) →
        ∃ g, (ls.map FieldLine.text).foldlM (parseField p) f = .ok g) := by
  induction ls generalizing f with
  | nil =>
    constructor
    · intro g hg
      cases hg
      exact ⟨by simp, by simp⟩
    · intro _
      exact ⟨f, rfl⟩
  | cons l ls ih =>
    obtain ⟨hok, hreturns⟩ := returnsIf_field p f l
    rw [List.map_cons, List.foldlM_cons]
    constructor
    · intro g hg
      obtain ⟨f', hf', hg⟩ := do_ok_iff.mp hg
      obtain ⟨hreadable, hvalues⟩ := hok f' hf'
      obtain ⟨hall, hlookup⟩ := (ih f').1 g hg
      refine ⟨List.forall_mem_cons.mpr ⟨hreadable, hall⟩, fun name => ?_⟩
      rw [hlookup name, hvalues, List.reverse_cons, List.find?_append]
      by_cases hname : l.name = name
      · subst hname
        rw [AList.lookup_insert]
        cases ls.reverse.find? (·.name = l.name) <;> simp
      · rw [AList.lookup_insert_ne (Ne.symm hname)]
        cases ls.reverse.find? (·.name = name) <;> simp [hname]
    · intro hall
      obtain ⟨f', hf'⟩ := hreturns (hall l List.mem_cons_self)
      obtain ⟨g, hg⟩ := (ih f').2 fun m hm => hall m (List.mem_cons_of_mem _ hm)
      exact ⟨g, (do_of_ok hf').trans hg⟩

theorem parseInitLine_ok (p : Platform) {f : HttpFieldsV11} {startLine : Str}
    (h : IsStartLine f startLine) :
    ∃ g, f.parseInitLine p startLine = .ok g ∧ g.lines = f.lines ∧
      g.valuePerFieldName = f.valuePerFieldName := by
  have hparts : ∃ g, { f with initLine := some startLine }.parseStartLine
      (Str.split 0x20 startLine) = .ok g ∧ g.lines = f.lines ∧
      g.valuePerFieldName = f.valuePerFieldName := by
    unfold IsStartLine at h
    unfold parseStartLine
    dsimp only
    split_ifs at h ⊢ with hresponse hrequest
    · obtain ⟨version, status, text, z, hversion, hstatus, hz, rfl⟩ := h
      obtain ⟨piece, pieces, htext⟩ : ∃ piece pieces, Str.split 0x20 text = piece :: pieces := by
        have hhead := Str.head?_split 0x20 text
        exact ⟨_, List.head?_eq_some_iff.mp hhead⟩
      rw [Str.split_append hversion, Str.split_append hstatus, htext]
      refine ⟨_, (do_of_ok rfl).trans ((do_of_ok rfl).trans
        ((do_of_ok hz).trans (do_of_ok rfl))), rfl, rfl⟩
    · obtain ⟨method, target, version, hmethod, htarget, rfl⟩ := h
      obtain ⟨piece, pieces, hpieces⟩ :
          ∃ piece pieces, Str.split 0x20 version = piece :: pieces := by
        have hhead := Str.head?_split 0x20 version
        exact ⟨_, List.head?_eq_some_iff.mp hhead⟩
      rw [Str.split_append hmethod, Str.split_append htarget, hpieces]
      exact ⟨_, rfl, rfl, rfl⟩
    · exact ⟨_, rfl, rfl, rfl⟩
  obtain ⟨g, hg, hlines, hvalues⟩ := hparts
  exact ⟨_, do_of_ok hg, hlines, hvalues⟩

end HttpFieldsV11

/-! ### Blocks -/

namespace HeaderLines
variable (p : Platform) (h : HeaderLines)

/-- The dictionary after the call, where it returns. -/
theorem parseLines_spec :
    (∀ f, h.object.parseLines p = .ok f → (∀ l ∈ h.fields, FieldReadable p l.text) ∧
      ∀ name, AList.lookup name f.valuePerFieldName =
        (h.lastField name).map HttpFieldsV11.kept) ∧
      ((∀ l ∈ h.fields, FieldReadable p l.text) → ∃ f, h.object.parseLines p = .ok f) := by
  obtain ⟨g, hg, hlines, hvalues⟩ := HttpFieldsV11.parseInitLine_ok p h.start
  have hparse : h.object.parseLines p =
      (h.fields.map FieldLine.text).foldlM (HttpFieldsV11.parseField p) g := by
    have hfields : g.fieldLines = h.fields.map FieldLine.text := by
      rw [HttpFieldsV11.fieldLines, hlines, h.lines]
      simp
    rw [HttpFieldsV11.parseLines, h.lines]
    dsimp only [List.cons_append]
    rw [do_of_ok hg, hfields]
  obtain ⟨hok, hreturns⟩ := HttpFieldsV11.returnsIf_fields p h.fields g
  rw [hparse]
  refine ⟨fun f hf => ?_, hreturns⟩
  obtain ⟨hall, hlookup⟩ := hok f hf
  refine ⟨hall, fun name => ?_⟩
  rw [hlookup name, hvalues, h.fresh, AList.lookup_empty, Option.or_none]
  rfl

theorem faithful_iff (value : FieldLine → Str) :
    h.Faithful p value ↔ (∀ l ∈ h.fields, FieldReadable p l.text) ∧
      ∀ name, ∀ l ∈ h.lastField name, HttpFieldsV11.kept l = value l := by
  obtain ⟨hok, hreturns⟩ := h.parseLines_spec p
  constructor
  · intro ⟨f, hf, hfaithful⟩
    obtain ⟨hall, hlookup⟩ := hok f hf
    refine ⟨hall, fun name l hl => ?_⟩
    have heq := (hlookup name).symm.trans (hfaithful name)
    rw [hl] at heq
    exact Option.some.inj heq
  · intro ⟨hall, hvalue⟩
    obtain ⟨f, hf⟩ := hreturns hall
    refine ⟨f, hf, fun name => ?_⟩
    rw [(hok f hf).2 name]
    exact Option.map_congr (hvalue name)

end HeaderLines

namespace FieldLine
variable (l : FieldLine)

theorem white_not_colon {c : UInt16} (h : Str.isWhite c = true) : c ≠ 0x3A := by
  rintro rfl
  exact absurd h (by decide)

theorem colon_behind_iff : 0x3A ∈ l.behind ↔ 0x3A ∈ l.value := by
  have hbefore : 0x3A ∉ l.before := fun hmem =>
    white_not_colon (l.white _ (List.mem_append_left _ hmem)) rfl
  have hafter : 0x3A ∉ l.after := fun hmem =>
    white_not_colon (l.white _ (List.mem_append_right _ hmem)) rfl
  simp [behind, hbefore, hafter]

theorem kept_eq_behind_iff : HttpFieldsV11.kept l = l.behind ↔ 0x3A ∉ l.value := by
  rw [HttpFieldsV11.kept, List.takeWhile_eq_self_iff, ← l.colon_behind_iff]
  simp only [decide_eq_true_eq]
  constructor
  · intro hall hmem
    exact hall _ hmem rfl
  · intro hnot c hc heq
    exact hnot (heq ▸ hc)

theorem kept_eq_append (hbefore : l.before = []) (hcolon : 0x3A ∉ l.value) :
    HttpFieldsV11.kept l = l.value ++ l.after := by
  have heq : l.behind = l.value ++ l.after := by rw [behind, hbefore, List.nil_append]
  rw [← heq]
  exact l.kept_eq_behind_iff.mpr hcolon

/-- White space is kept, so around the value there must be none. -/
theorem kept_eq_value_iff :
    HttpFieldsV11.kept l = l.value ↔ 0x3A ∉ l.value ∧ l.before = [] ∧ l.after = [] := by
  constructor
  · intro hkept
    have hcolon : 0x3A ∉ l.value := by
      intro hmem
      rw [← hkept] at hmem
      have hne := List.mem_takeWhile_imp hmem
      simp at hne
    have hbefore : l.before = [] := by
      cases hfront : l.before with
      | nil => rfl
      | cons c before =>
        have hwhite : Str.isWhite c = true := l.white c (by simp [hfront])
        have hne : c ≠ 0x3A := white_not_colon hwhite
        have hhead : l.value.head? = some c := by
          rw [← hkept, HttpFieldsV11.kept, behind, hfront, List.cons_append,
            List.takeWhile_cons_of_pos (by simpa using hne)]
          rfl
        exact absurd hwhite (by rw [l.trimmed c (.inl hhead)]; decide)
    have hafter : l.value ++ l.after = l.value :=
      (l.kept_eq_append hbefore hcolon).symm.trans hkept
    exact ⟨hcolon, hbefore, List.append_right_eq_self.mp hafter⟩
  · intro ⟨hcolon, hbefore, hafter⟩
    rw [l.kept_eq_append hbefore hcolon, hafter, List.append_nil]

end FieldLine

/-- The last lines of the fields decide. By all that stands behind the colon the values must be
without a colon; by the values alone there must be no white space around them either. -/
theorem parseLines_faithful_iff (p : Platform) (h : HeaderLines) :
    (h.Faithful p FieldLine.behind ↔ (∀ l ∈ h.fields, FieldReadable p l.text) ∧
      ∀ name, ∀ l ∈ h.lastField name, 0x3A ∉ l.value) ∧
    (h.Faithful p FieldLine.value ↔ (∀ l ∈ h.fields, FieldReadable p l.text) ∧
      ∀ name, ∀ l ∈ h.lastField name, 0x3A ∉ l.value ∧ l.before = [] ∧ l.after = []) := by
  constructor
  · rw [h.faithful_iff p]
    simp only [FieldLine.kept_eq_behind_iff]
  · rw [h.faithful_iff p]
    simp only [FieldLine.kept_eq_value_iff]

/-- `Host: h:8080` -/
def hostWithPort : FieldLine where
  name := ascii "Host"
  before := ascii " "
  value := ascii "h:8080"
  after := []
  not_colon := by decide
  white := List.all_eq_true.mp (by decide)
  trimmed := by
    have hhead : (ascii "h:8080").head? = some 0x68 := rfl
    have hlast : (ascii "h:8080").getLast? = some 0x30 := rfl
    intro c hc
    rcases hc with hc | hc
    · rw [hhead] at hc
      cases hc
      rfl
    · rw [hlast] at hc
      cases hc
      rfl

def linesWithPort : HeaderLines where
  object := { isRequest := true, lines := [ascii "GET / HTTP/1.1", ascii "Host: h:8080", []] }
  startLine := ascii "GET / HTTP/1.1"
  fields := [hostWithPort]
  lastLine := []
  lines := by decide
  fresh := rfl
  start := ⟨ascii "GET", ascii "/", ascii "HTTP/1.1", by decide, by decide, by decide⟩

/-- The port is lost. -/
theorem not_parseLines_faithful :
    (∃ f, linesWithPort.object.parseLines {} = .ok f ∧
      AList.lookup (ascii "Host") f.valuePerFieldName = some (ascii " h")) ∧
      ¬ linesWithPort.Faithful {} FieldLine.behind ∧
      ¬ linesWithPort.Faithful {} FieldLine.value := by
  have hlast : linesWithPort.lastField (ascii "Host") = some hostWithPort := by
    rw [HeaderLines.lastField, linesWithPort]
    exact List.find?_cons_of_pos (by decide)
  refine ⟨ok_of_toOption_map (by decide), ?_, ?_⟩
  · rw [HeaderLines.faithful_iff]
    intro ⟨_, hkept⟩
    exact absurd (hkept _ _ hlast) (by decide)
  · rw [HeaderLines.faithful_iff]
    intro ⟨_, hkept⟩
    exact absurd (hkept _ _ hlast) (by decide)

end DecodingProxy.Http
