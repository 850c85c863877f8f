import DecodingProxy.Http.StartLine
import DecodingProxy.Piped.SubsequenceChecks

/-!
# `HttpBinaryMapped.FindVersion`

The start line is cut at its spaces. A status line begins with the version; behind the second
space of a request line there is no third one, so the whole line is taken. In either the constants
of the versions are looked for one after the other, and that of HTTP/1.0 answers with HTTP/1.1.
-/

namespace DecodingProxy.Buffers

/-- The loop of `FindSplit` from index `i` on. -/
def findSplitFrom (span : List UInt8) (byteChar : UInt8) (index : ℕ) :
    ℕ → ℕ → ℕ → List UInt8 → List UInt8
  | _, _, _, [] => span
  | count, offset, i, b :: rest =>
    if b = byteChar then
      -- the inner loop begins at this byte and ends with it
      if count = index then (span.take i).drop offset
      else findSplitFrom span byteChar index (count + 1) i (i + 1) rest
    else findSplitFrom span byteChar index count offset (i + 1) rest

def findSplit (span : List UInt8) (byteChar : UInt8) (index : ℕ) : List UInt8 :=
  findSplitFrom span byteChar index 0 0 0 span

end DecodingProxy.Buffers

namespace DecodingProxy.Piped
open DecodingProxy.Buffers DecodingProxy.Http DecodingProxy.Restarts DecodingProxy.Runtime
open DecodingProxy.Http.ConstantsForHttp

namespace HttpBinaryMapped

def getLineByIndex (index : ℕ) (item : HttpBinaryMapped) : Except Fault (List UInt8) :=
  match item.maps[index]? with
  | none => .error (.raised .indexOutOfRange)
  | some (offset, length) =>
    if offset + length ≤ item.datas.length then .ok ((item.datas.drop offset).take length)
    else .error (.raised .argumentOutOfRange)

/-- The tests for the versions, in their order. -/
def versionOf (version : List UInt8) : Except Fault EHttpVersion :=
  if Piped.gotSubsequenceProbablyAtBackCI version memVersion11 then .ok .version11
  else if Piped.gotSubsequenceProbablyAtBackCI version memVersion20 then .ok .version20
  else if Piped.gotSubsequenceProbablyAtBackCI version memVersion30 then .ok .version30
  else if Piped.gotSubsequenceProbablyAtBackCI version memVersion10 then .ok .version11
  else .error (.thrown .argument ("Can't parse version. Recived:" ++
    String.ofList ((Utf8.getString version).map fun c => Char.ofNat c.toNat)))

def findVersion (item : HttpBinaryMapped) : Except Fault EHttpVersion := do
  let span ← item.getLineByIndex 0
  match item.type with
  | .request => versionOf (findSplit span SPACE 2)
  | .response => versionOf (findSplit span SPACE 0)

end HttpBinaryMapped

/-! ### Start lines -/

/-- The digits of a version. -/
structure HttpVersion where
  major : UInt8
  minor : UInt8
  digits : IsDigits [major, minor]

namespace HttpVersion

def bytes (v : HttpVersion) : List UInt8 := asciiBytes "HTTP/" ++ [v.major, 0x2E, v.minor]

def Is (v : HttpVersion) : EHttpVersion → Prop
  | .none => False
  | .version10 => v.major = 0x31 ∧ v.minor = 0x30
  | .version11 => v.major = 0x31 ∧ v.minor = 0x31
  | .version20 => v.major = 0x32 ∧ v.minor = 0x30
  | .version30 => v.major = 0x33 ∧ v.minor = 0x30

end HttpVersion

inductive StartLine
  | request (method target : List UInt8) (version : HttpVersion)
  | status (version : HttpVersion) (code reason : List UInt8)

namespace StartLine

def type : StartLine → MessageType
  | request .. => .request
  | status .. => .response

def version : StartLine → HttpVersion
  | request _ _ version | status version _ _ => version

def bytes : StartLine → List UInt8
  | request method target version =>
    method ++ SPACE :: (target ++ SPACE :: (version.bytes ++ CRLF))
  | status version code reason => version.bytes ++ SPACE :: (code ++ SPACE :: (reason ++ CRLF))

/-- What the tests are made on. -/
def versionSlice : StartLine → List UInt8
  | line@(request ..) => line.bytes
  | status version _ _ => version.bytes

def Valid : StartLine → Prop
  | request method target _ =>
    (method ≠ [] ∧ ∀ b ∈ method, IsVisible b) ∧ target ≠ [] ∧ ∀ b ∈ target, IsVisible b
  | status _ code reason => (IsDigits code ∧ code.length = 3) ∧ CR ∉ reason ∧ LF ∉ reason

/-- A comparison with the text begins where it stands in the line. -/
def Shows (line : StartLine) (text : List UInt8) : Prop :=
  Found (backAgain text.length) (text.map lowerByte) (line.bytes.map lowerByte)

/-- The version is HTTP/1.1, or it is HTTP/2.0 or HTTP/3.0 and no comparison that comes earlier in
the request line finds another one. -/
def Recognised (line : StartLine) : Prop :=
  line.version.Is .version11 ∨
    line.version.Is .version20 ∧ (line.type = .request → ¬ line.Shows memVersion11) ∨
    line.version.Is .version30 ∧
      (line.type = .request → ¬ line.Shows memVersion11 ∧ ¬ line.Shows memVersion20)

/-- The call returns the version that is written. -/
def ReadsVersion (line : StartLine) (item : HttpBinaryMapped) : Prop :=
  ∃ e, item.findVersion = .ok e ∧ line.version.Is e

end StartLine

/-! ### The pieces between spaces -/

theorem findSplitFrom_few {span rest : List UInt8} {byteChar : UInt8} {index : ℕ} :
    ∀ {count offset i : ℕ}, count + rest.count byteChar ≤ index →
      findSplitFrom span byteChar index count offset i rest = span := by
  induction rest with
  | nil => exact fun _ => rfl
  | cons b rest ih =>
    intro count offset i hfew
    rw [findSplitFrom]
    by_cases hspace : b = byteChar
    · rw [hspace, List.count_cons_self] at hfew
      rw [if_pos hspace, if_neg (by omega)]
      exact ih (by omega)
    · rw [List.count_cons_of_ne hspace] at hfew
      rw [if_neg hspace]
      exact ih hfew

/-- With too few separators the whole span is returned. -/
theorem findSplit_few {span : List UInt8} {byteChar : UInt8} {index : ℕ}
    (h : span.count byteChar ≤ index) : findSplit span byteChar index = span :=
  findSplitFrom_few (by simpa using h)

theorem findSplitFrom_first {span part rest : List UInt8} {byteChar : UInt8}
    (hpart : byteChar ∉ part) :
    ∀ {i : ℕ}, findSplitFrom span byteChar 0 0 0 i (part ++ byteChar :: rest) =
      span.take (i + part.length) := by
  induction part with
  | nil =>
    intro i
    rw [List.nil_append, findSplitFrom, if_pos rfl, if_pos rfl]
    simp
  | cons b part ih =>
    intro i
    obtain ⟨hne, hpart⟩ := not_or.mp (List.mem_cons.not.mp hpart)
    rw [List.cons_append, findSplitFrom, if_neg (Ne.symm hne), ih hpart]
    simp [Nat.add_assoc, Nat.add_comm 1]

theorem findSplit_first {part rest : List UInt8} {byteChar : UInt8} (hpart : byteChar ∉ part) :
    findSplit (part ++ byteChar :: rest) byteChar 0 = part := by
  rw [findSplit, findSplitFrom_first hpart]
  simp

/-! ### The tests -/

open HttpBinaryMapped

theorem HttpVersion.space_not_mem (v : HttpVersion) : SPACE ∉ v.bytes := by
  have hdigit : ∀ b ∈ [v.major, v.minor], b ≠ SPACE := by
    rintro b hb rfl
    exact absurd (v.digits.2 _ hb).1 (by decide)
  simp only [List.mem_cons, List.not_mem_nil, or_false, forall_eq_or_imp, forall_eq] at hdigit
  have htext : SPACE ∉ asciiBytes "HTTP/" := by decide
  have hdot : SPACE ≠ 0x2E := by decide
  simp [bytes, htext, hdot, hdigit.1.symm, hdigit.2.symm]

/-- What the tests answer, by the texts they find. -/
theorem versionOf_is {text : List UInt8} {v : HttpVersion} :
    (∃ e, versionOf text = .ok e ∧ v.Is e) ↔
      let found := fun word => Piped.gotSubsequenceProbablyAtBackCI text word = true
      v.Is .version11 ∧ (found memVersion11 ∨
          ¬ found memVersion20 ∧ ¬ found memVersion30 ∧ found memVersion10) ∨
        v.Is .version20 ∧ ¬ found memVersion11 ∧ found memVersion20 ∨
        v.Is .version30 ∧ ¬ found memVersion11 ∧ ¬ found memVersion20 ∧ found memVersion30 := by
  unfold versionOf
  split_ifs with h11 h20 h30 h10 <;> simp [*]

/-! ### Request lines -/

namespace StartLine

theorem bytes_last (line : StartLine) : ∃ front, line.bytes = front ++ [LF] := by
  cases line with
  | request method target version =>
    exact ⟨method ++ SPACE :: (target ++ SPACE :: (version.bytes ++ [CR])), by simp [bytes, CRLF]⟩
  | status version code reason =>
    exact ⟨version.bytes ++ SPACE :: (code ++ SPACE :: (reason ++ [CR])), by simp [bytes, CRLF]⟩

/-- On the whole line the test finds a text where a comparison begins, since no text ends like the
line. -/
theorem found_iff {line : StartLine} {word : List UInt8} (hne : word ≠ [])
    (hlast : LF ∉ word.map lowerByte) (hle : word.length ≤ line.bytes.length) :
    Piped.gotSubsequenceProbablyAtBackCI line.bytes word = true ↔ line.Shows word := by
  obtain ⟨front, hfront⟩ := line.bytes_last
  have hends : ¬ EndsInside (backAgain word.length) (word.map lowerByte)
      (line.bytes.map lowerByte) := by
    rw [hfront, List.map_append]
    exact not_endsInside_of_last hlast fun m n h => by rwa [List.length_map]
  rw [gotBytesAtBackCI_stops hne]
  exact ⟨fun h => h.2.resolve_right hends, fun h => ⟨hle, .inl h⟩⟩

/-- The version stands behind a space, which no version has. -/
theorem shows_version {method target word rest : List UInt8} {version : HttpVersion}
    (hspace : SPACE ∉ word.map lowerByte) (hword : version.bytes ++ CRLF = word ++ rest) :
    (request method target version).Shows word := by
  have hbytes : (request method target version).bytes.map lowerByte =
      (method ++ SPACE :: target).map lowerByte ++
        SPACE :: (word.map lowerByte ++ rest.map lowerByte) := by
    rw [bytes, hword, List.map_append, List.map_append, List.map_cons, List.map_cons,
      List.map_append, List.map_cons, List.map_append, List.append_assoc]
    rfl
  rw [Shows, hbytes]
  exact found_separated hspace fun m n h => by rwa [List.length_map] at h

end StartLine

/-- The constant that a version of the source is looked for by begins it. -/
theorem HttpVersion.Is.begins {v : HttpVersion} {e : EHttpVersion} (h : v.Is e) :
    e.token <+: v.bytes := by
  cases e with
  | none => exact h.elim
  | version10 | version11 | version20 | version30 =>
    rw [bytes, h.1, h.2]
    decide

namespace StartLine

theorem count_space_request {method target : List UInt8} {version : HttpVersion}
    (hmethod : ∀ b ∈ method, IsVisible b) (htarget : ∀ b ∈ target, IsVisible b) :
    (request method target version).bytes.count SPACE = 2 := by
  have hnone : ∀ part : List UInt8, (∀ b ∈ part, IsVisible b) → part.count SPACE = 0 := by
    refine fun part hpart => List.count_eq_zero.mpr fun hmem => ?_
    exact absurd (hpart SPACE hmem) (by decide)
  have hversion := List.count_eq_zero.mpr version.space_not_mem
  simp only [bytes, List.count_append, List.count_cons_self, hnone _ hmethod, hnone _ htarget,
    hversion]
  decide

/-- The token that the version is looked for by, in a request line that has it. -/
theorem request_shows {method target : List UInt8} {version : HttpVersion} {e : EHttpVersion}
    (h : version.Is e) : (request method target version).Shows e.token := by
  obtain ⟨rest, hrest⟩ := h.begins
  have hspace : SPACE ∉ e.token.map lowerByte := by cases e <;> decide
  exact shows_version hspace (by rw [← hrest, List.append_assoc])

theorem request_iff {method target : List UInt8} {version : HttpVersion} :
    (∃ e, versionOf (request method target version).bytes = .ok e ∧ version.Is e) ↔
      (request method target version).Recognised := by
  have hlength : 8 ≤ (request method target version).bytes.length := by
    simp only [bytes, HttpVersion.bytes, CRLF, List.length_append, List.length_cons]
    change 8 ≤ _ + (_ + (5 + _ + _ + 1) + 1)
    omega
  have hfound : ∀ word : List UInt8, word ≠ [] → LF ∉ word.map lowerByte → word.length ≤ 8 →
      (Piped.gotSubsequenceProbablyAtBackCI (request method target version).bytes word = true ↔
        (request method target version).Shows word) :=
    fun _ hne hlast hle => found_iff hne hlast (hle.trans hlength)
  have h11 := hfound memVersion11 (by decide) (by decide) (by decide)
  have h20 := hfound memVersion20 (by decide) (by decide) (by decide)
  have h30 := hfound memVersion30 (by decide) (by decide) (by decide)
  have hshows : ∀ {e}, version.Is e → (request method target version).Shows e.token :=
    request_shows
  rw [versionOf_is]
  simp only [h11, h20, h30]
  constructor
  · rintro (⟨hversion, -⟩ | ⟨hversion, hnot11, -⟩ | ⟨hversion, hnot11, hnot20, -⟩)
    · exact .inl hversion
    · exact .inr (.inl ⟨hversion, fun _ => hnot11⟩)
    · exact .inr (.inr ⟨hversion, fun _ => ⟨hnot11, hnot20⟩⟩)
  · rintro (hversion | ⟨hversion, hfirst⟩ | ⟨hversion, hfirst⟩)
    · exact .inl ⟨hversion, .inl (hshows hversion)⟩
    · exact .inr (.inl ⟨hversion, hfirst rfl, hshows hversion⟩)
    · obtain ⟨hnot11, hnot20⟩ := hfirst rfl
      exact .inr (.inr ⟨hversion, hnot11, hnot20, hshows hversion⟩)

/-! ### Status lines -/

theorem mem_digits {b : UInt8} (h : 0x30 ≤ b ∧ b ≤ 0x39) : b ∈ asciiBytes "0123456789" := by
  obtain ⟨hlow, hhigh⟩ := h
  have hlow : 48 ≤ b.toNat := hlow
  have hhigh : b.toNat ≤ 57 := hhigh
  have hall : ∀ n < 10, UInt8.ofNat (48 + n) ∈ asciiBytes "0123456789" := by decide
  have hb : b = UInt8.ofNat (48 + (b.toNat - 48)) := by
    rw [Nat.add_sub_cancel' hlow, UInt8.ofNat_toNat]
  rw [hb]
  exact hall _ (by omega)

theorem found_digits : ∀ major ∈ asciiBytes "0123456789", ∀ minor ∈ asciiBytes "0123456789",
    let found := Piped.gotSubsequenceProbablyAtBackCI (asciiBytes "HTTP/" ++ [major, 0x2E, minor])
    found memVersion11 = decide (major = 0x31 ∧ minor = 0x31) ∧
      found memVersion20 = decide (major = 0x32) ∧ found memVersion30 = decide (major = 0x33) := by
  decide

theorem status_iff {version : HttpVersion} {code reason : List UInt8} :
    (∃ e, versionOf version.bytes = .ok e ∧ version.Is e) ↔
      (status version code reason).Recognised := by
  have hdigits := version.digits.2
  simp only [List.mem_cons, List.not_mem_nil, or_false, forall_eq_or_imp, forall_eq] at hdigits
  obtain ⟨h11, h20, h30⟩ := found_digits _ (mem_digits hdigits.1) _ (mem_digits hdigits.2)
  have hother : (status version code reason).type ≠ .request := by simp [type]
  rw [versionOf_is]
  simp only [HttpVersion.bytes, h11, h20, h30, decide_eq_true_iff]
  have hdiffer : ¬ (0x32 : UInt8) = 0x31 ∧ ¬ (0x33 : UInt8) = 0x31 ∧ ¬ (0x33 : UInt8) = 0x32 := by
    decide
  constructor
  · rintro (⟨hversion, -⟩ | ⟨hversion, -⟩ | ⟨hversion, -⟩)
    · exact .inl hversion
    · exact .inr (.inl ⟨hversion, fun h => absurd h hother⟩)
    · exact .inr (.inr ⟨hversion, fun h => absurd h hother⟩)
  · rintro (hversion | ⟨hversion, -⟩ | ⟨hversion, -⟩)
    · exact .inl ⟨hversion, .inl hversion⟩
    · have hmajor : version.major = 0x32 := hversion.1
      exact .inr (.inl ⟨hversion, fun h => hdiffer.1 (hmajor ▸ h.1), hmajor⟩)
    · have hmajor : version.major = 0x33 := hversion.1
      exact .inr (.inr ⟨hversion, fun h => hdiffer.2.1 (hmajor ▸ h.1),
        fun h => hdiffer.2.2 (hmajor ▸ h), hmajor⟩)

/-! ### The call -/

theorem findVersion_eq {line : StartLine} (hvalid : line.Valid) {item : HttpBinaryMapped}
    (htype : item.type = line.type) (hline : item.getLineByIndex 0 = .ok line.bytes) :
    item.findVersion = versionOf line.versionSlice := by
  unfold findVersion
  rw [hline, htype]
  cases line with
  | request method target version =>
    obtain ⟨⟨-, hmethod⟩, -, htarget⟩ := hvalid
    exact congrArg versionOf (findSplit_few (count_space_request hmethod htarget).le)
  | status version code reason =>
    exact congrArg versionOf (findSplit_first version.space_not_mem)

end StartLine

/-- The version of the line is returned just for HTTP/1.1, and for HTTP/2.0 and HTTP/3.0 unless
the search finds another one first; HTTP/1.0 is never told from HTTP/1.1. -/
theorem StartLine.readsVersion_iff {line : StartLine} (hvalid : line.Valid)
    {item : HttpBinaryMapped} (htype : item.type = line.type)
    (hline : item.getLineByIndex 0 = .ok line.bytes) :
    line.ReadsVersion item ↔ line.Recognised := by
  rw [ReadsVersion, findVersion_eq hvalid htype hline]
  cases line with
  | request method target version => exact request_iff
  | status version code reason => exact status_iff

def http10 : HttpVersion := ⟨0x31, 0x30, by decide⟩

def http11 : HttpVersion := ⟨0x31, 0x31, by decide⟩

/-- `GET / HTTP/1.x`. -/
def getRoot (version : HttpVersion) : StartLine := .request (asciiBytes "GET") [0x2F] version

theorem getRoot_valid (version : HttpVersion) : (getRoot version).Valid :=
  ⟨⟨by decide, by decide⟩, by decide, by decide⟩

/-- A message with no line but the first. -/
def messageOf (line : StartLine) : HttpBinaryMapped :=
  { type := line.type, datas := line.bytes, maps := [(0, line.bytes.length)] }

theorem StartLine.readsVersion_iff_get :
    (getRoot http11).ReadsVersion (messageOf (getRoot http11)) ↔ (getRoot http11).Recognised :=
  StartLine.readsVersion_iff (getRoot_valid _) rfl (by decide)

/-- `GET / HTTP/1.0` is read as HTTP/1.1. -/
theorem StartLine.not_readsVersion :
    ¬ ∀ (line : StartLine) (item : HttpBinaryMapped), line.Valid → item.type = line.type →
      item.getLineByIndex 0 = .ok line.bytes → line.ReadsVersion item := by
  intro h
  obtain ⟨e, he, hversion⟩ :=
    h (getRoot http10) (messageOf (getRoot http10)) (getRoot_valid _) rfl (by decide)
  have hread : (messageOf (getRoot http10)).findVersion = .ok .version11 := by decide
  cases he.symm.trans hread
  exact absurd hversion.2 (by decide)

end DecodingProxy.Piped
