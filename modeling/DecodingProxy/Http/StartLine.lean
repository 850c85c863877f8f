import DecodingProxy.Http.HostDisassembly
import DecodingProxy.Lib.Runs

/-!
# `ReaderHttpBlind.TryReadStartLine`

The three parts of the line are cut at white space. In the target a colon is looked for behind the
scheme: what stands before it, the scheme with it, is taken for the host, and all that stands
behind it, the path with it, for the port.
-/

namespace DecodingProxy.Http
open DecodingProxy.Buffers DecodingProxy.Runtime DecodingProxy.Runs

def SP : UInt8 := 0x20

/-- `char.IsWhiteSpace` of a byte. -/
def isWhiteSpace (b : UInt8) : Bool := b ∈ [0x09, 0x0A, 0x0B, 0x0C, 0x0D, 0x20, 0x85, 0xA0]

/-- `EnumeratorForSpanWhitespace.MoveNext`: the piece before the next white space, and what is
behind it. -/
def moveNext (spanLine : List UInt8) : Option (List UInt8 × List UInt8) :=
  match spanLine.dropWhile (!isWhiteSpace ·) with
  | [] => none
  | _ :: rest => some (spanLine.takeWhile (!isWhiteSpace ·), rest)

/-- The loop of `TryReadLine`: the length of the line up to its CR. -/
def tryReadLineFrom : ℕ → List UInt8 → Option ℕ
  | i, a :: span =>
    match span with
    | b :: _ => if a = CR ∧ b = LF then some i else tryReadLineFrom (i + 1) span
    | [] => none
  | _, [] => none

def tryReadLine (buffer : List UInt8) : Option (List UInt8) :=
  (tryReadLineFrom 1 buffer).map buffer.take

def compareWith (mem : List UInt8) (str : Str) : Bool := decide (chars mem = str)

/-- The flags of `EStartLine` that a request has. -/
structure EStartLine where
  methodConnect : Bool := false
  methodGet : Bool := false
  methodPost : Bool := false
  methodPut : Bool := false
  methodNotImplemented : Bool := false
  httpPresented : Bool := false
  httpsPresented : Bool := false
  portPresented : Bool := false
  deriving DecidableEq, Repr

inductive EHttpVersion
  | none
  | version10
  | version11
  | version20
  | version30
  deriving DecidableEq, Repr

namespace ConstantsForHttp

def memVersion10 : List UInt8 := asciiBytes "HTTP/1.0"
def memVersion11 : List UInt8 := asciiBytes "HTTP/1.1"
def memVersion20 : List UInt8 := asciiBytes "HTTP/2"
def memVersion30 : List UInt8 := asciiBytes "HTTP/3"

end ConstantsForHttp

structure StartLineReadResult where
  port : ℤ := 0
  step : ℕ := 0
  flags : EStartLine := {}
  httpVersion : EHttpVersion := .none
  host : List UInt8 := []
  deriving DecidableEq

namespace StartLineReadResult

def nextStep (r : StartLineReadResult) : StartLineReadResult := { r with step := r.step + 1 }

end StartLineReadResult

namespace TryReadStartLine

def readMethod (methodSlice : List UInt8) : EStartLine :=
  if compareWith methodSlice (ascii "CONNECT") then { methodConnect := true }
  else if compareWith methodSlice (ascii "GET") then { methodGet := true }
  else if compareWith methodSlice (ascii "POST") then { methodPost := true }
  else { methodNotImplemented := true }

/-- The flags with that of the scheme, what is behind the scheme, and the length of the scheme. -/
def readScheme (culture : CharCase) (memHost : List UInt8) (flags : EStartLine) :
    EStartLine × List UInt8 × ℕ :=
  if isStartWithCI culture memHost Urls.httpArray then
    ({ flags with httpPresented := true }, memHost.drop Urls.httpArray.length,
      Urls.httpArray.length)
  else if isStartWithCI culture memHost Urls.httpsArray then
    ({ flags with httpsPresented := true }, memHost.drop Urls.httpsArray.length,
      Urls.httpsArray.length)
  else (flags, memHost, 0)

def readTarget (culture : CharCase) (memHost : List UInt8) (r : StartLineReadResult) :
    Except Fault StartLineReadResult :=
  let (flags, connectionLine, offset) := readScheme culture memHost r.flags
  let indexColon := indexOf COLON connectionLine
  if indexColon > 0 then do
    let port ← Str.parseInt (chars (connectionLine.drop (indexColon.toNat + 1)))
    .ok { r with
      host := memHost.take (indexColon.toNat + offset)
      port
      flags := { flags with portPresented := true } }
  else .ok { r with host := connectionLine, flags }

def readVersion (splitVersion : List UInt8) (r : StartLineReadResult) :
    Except Fault (Bool × StartLineReadResult) :=
  if splitVersion = ConstantsForHttp.memVersion11 then
    .ok (true, { r with httpVersion := .version11 })
  else .error (.thrown .notSupported
    (String.ofList ((Utf8.getString splitVersion).map fun c => Char.ofNat c.toNat)))

end TryReadStartLine

open TryReadStartLine in
def tryReadStartLine (culture : CharCase) (buffer : List UInt8) :
    Except Fault (Bool × StartLineReadResult) :=
  let result : StartLineReadResult := {}
  match tryReadLine buffer with
  | none => .ok (false, result)
  | some _ =>
    match moveNext buffer with
    | none => .ok (false, result)
    | some (methodSlice, rest) =>
      let result := { result with flags := readMethod methodSlice }.nextStep
      match moveNext rest with
      | none => .ok (false, result)
      | some (memHost, rest) => do
        let result ← readTarget culture memHost result
        let result := result.nextStep
        match moveNext rest with
        | none => .ok (false, result)
        | some (splitVersion, _) => readVersion splitVersion result

/-- The port that `HttpProxyProcessor` connects to, without a `Host` field. -/
def StartLineReadResult.portOrDefault (r : StartLineReadResult) : Except Fault ℤ :=
  if r.flags.portPresented then .ok r.port
  else if r.flags.httpsPresented then .ok 443
  else if r.flags.httpPresented then .ok 80
  else .error (.thrown .format "Impossible?")

/-! ### Request lines -/

/-- `VCHAR`. -/
def IsVisible (b : UInt8) : Prop := 0x21 ≤ b ∧ b ≤ 0x7E

instance (b : UInt8) : Decidable (IsVisible b) := instDecidableAnd

/-- A host has a colon only between brackets. -/
structure IsHost (host : List UInt8) : Prop where
  nonempty : host ≠ []
  visible : ∀ b ∈ host, IsVisible b
  not_slash : SLASH ∉ host
  brackets : COLON ∈ host → ∃ address, host = 0x5B :: address ++ [0x5D]

/-- `host:port` and `http[s]://host[:port]/path`. -/
inductive Target
  | authority (host port : List UInt8)
  | absolute (scheme : WrittenScheme) (host : List UInt8) (port : Option (List UInt8))
      (path : List UInt8)

namespace Target

def Valid : Target → Prop
  | authority host port => IsHost host ∧ IsDigits port
  | absolute _ host port path =>
    IsHost host ∧ (∀ p ∈ port, IsDigits p) ∧ (∀ b ∈ path, IsVisible b) ∧
      (path = [] ∨ path.head? = some SLASH)

def host : Target → List UInt8
  | authority host _ | absolute _ host _ _ => host

def scheme : Target → Option WrittenScheme
  | authority _ _ => none
  | absolute scheme _ _ _ => some scheme

/-- What is behind the scheme. -/
def connectionLine : Target → List UInt8
  | authority host port => host ++ COLON :: port
  | absolute _ host port path => host ++ (portBytes port ++ path)

def bytes (t : Target) : List UInt8 := schemeBytes t.scheme ++ t.connectionLine

/-- The port that is written, or else the one of the scheme. -/
def portOrDefault : Target → ℤ
  | authority _ port | absolute _ _ (some port) _ => Str.decimal (chars port)
  | absolute scheme _ none _ => scheme.scheme.defaultPort

end Target

/-- A request line, and what follows it. -/
structure RequestLine where
  method : List UInt8
  target : Target
  version : List UInt8
  following : List UInt8
  method_token : ∀ b ∈ method, IsVisible b
  target_valid : target.Valid
  connect : target.scheme = none → method = asciiBytes "CONNECT"
  version_digits : ∃ major minor, IsDigits [major, minor] ∧
    version = asciiBytes "HTTP/" ++ [major, 0x2E, minor]

def RequestLine.bytes (l : RequestLine) : List UInt8 :=
  l.method ++ SP :: (l.target.bytes ++ SP :: (l.version ++ CR :: LF :: l.following))

/-- One of the flags is that of the method. -/
def EStartLine.Names (flags : EStartLine) (method : List UInt8) : Prop :=
  (flags.methodConnect = true ∧ method = asciiBytes "CONNECT") ∨
    (flags.methodGet = true ∧ method = asciiBytes "GET") ∨
    (flags.methodPost = true ∧ method = asciiBytes "POST") ∨
    flags.methodPut = true ∧ method = asciiBytes "PUT"

open ConstantsForHttp in
def EHttpVersion.token : EHttpVersion → List UInt8
  | none => []
  | version10 => memVersion10
  | version11 => memVersion11
  | version20 => memVersion20
  | version30 => memVersion30

/-- The result and the port are what the line says. -/
structure Says (l : RequestLine) (r : StartLineReadResult) (port : Except Fault ℤ) : Prop where
  host : r.host = l.target.host
  port : port = .ok l.target.portOrDefault
  method : r.flags.Names l.method
  version : r.httpVersion.token = l.version

/-- The call succeeds and reports what the line says, the port as `port` takes it from the
result. -/
def ReadsLine (culture : CharCase) (l : RequestLine) (port : StartLineReadResult → Except Fault ℤ) :
    Prop :=
  ∃ r, tryReadStartLine culture l.bytes = .ok (true, r) ∧ Says l r (port r)

/-! ### The parts of the line -/

theorem not_white_of_visible {b : UInt8} (h : IsVisible b) : isWhiteSpace b = false := by
  rw [← Bool.not_eq_true, isWhiteSpace, decide_eq_true_iff]
  intro hmem
  have hnone : ∀ c ∈ ([0x09, 0x0A, 0x0B, 0x0C, 0x0D, 0x20, 0x85, 0xA0] : List UInt8),
      ¬ IsVisible c := by decide
  exact hnone b hmem h

theorem moveNext_append {part rest : List UInt8} {b : UInt8}
    (hpart : ∀ c ∈ part, isWhiteSpace c = false) (hb : isWhiteSpace b = true) :
    moveNext (part ++ b :: rest) = some (part, rest) := by
  have hall : ∀ c ∈ part, (!isWhiteSpace c) = true := by
    intro c hc
    rw [hpart c hc]
    rfl
  unfold moveNext
  rw [List.dropWhile_append_of_pos hall, List.dropWhile_cons_of_neg (by simp [hb]),
    List.takeWhile_append_of_pos hall, List.takeWhile_cons_of_neg (by simp [hb]), List.append_nil]

theorem tryReadLineFrom_isSome {i : ℕ} {buffer : List UInt8} (h : CRLF <:+: buffer) :
    (tryReadLineFrom i buffer).isSome = true := by
  induction buffer generalizing i with
  | nil =>
    have hle := h.length_le
    simp [CRLF] at hle
  | cons a buffer ih =>
    cases buffer with
    | nil =>
      have hle := h.length_le
      simp [CRLF] at hle
    | cons b buffer =>
      rw [tryReadLineFrom]
      split_ifs with hend
      · rfl
      · apply ih
        rcases List.infix_cons_iff.mp h with hfront | hinside
        · simp only [CRLF, List.cons_prefix_cons] at hfront
          exact absurd ⟨hfront.1.symm, hfront.2.1.symm⟩ hend
        · exact hinside

theorem WrittenScheme.not_white (s : WrittenScheme) : ∀ b ∈ s.bytes, isWhiteSpace b = false := by
  intro b hb
  rw [← Bool.not_eq_true, isWhiteSpace, decide_eq_true_iff]
  intro hmem
  have hlower : Str.lower b.toUInt16 ∈ s.scheme.array := by
    rw [← s.spelled]
    exact List.mem_map_of_mem (List.mem_map_of_mem hb)
  have hnone : ∀ scheme : Scheme, ∀ c ∈ ([0x09, 0x0A, 0x0B, 0x0C, 0x0D, 0x20, 0x85, 0xA0] :
      List UInt8), Str.lower c.toUInt16 ∉ scheme.array := by
    intro scheme
    cases scheme <;> decide
  exact hnone s.scheme b hmem hlower

theorem IsDigits.not_white {digits : List UInt8} (h : IsDigits digits) :
    ∀ b ∈ digits, isWhiteSpace b = false := by
  intro b hb
  obtain ⟨hlow, hhigh⟩ := h.2 b hb
  exact not_white_of_visible ⟨UInt8.le_trans (by decide) hlow, UInt8.le_trans hhigh (by decide)⟩

theorem portBytes_not_white {port : Option (List UInt8)} (h : ∀ p ∈ port, IsDigits p) :
    ∀ b ∈ portBytes port, isWhiteSpace b = false := by
  cases port with
  | none => simp [portBytes]
  | some p => exact List.forall_mem_cons.mpr ⟨rfl, (h p rfl).not_white⟩

theorem Target.Valid.isHost {t : Target} (h : t.Valid) : IsHost t.host := by
  cases t with
  | authority host port => exact h.1
  | absolute scheme host port path => exact h.1

theorem Target.Valid.not_white {t : Target} (h : t.Valid) :
    ∀ b ∈ t.bytes, isWhiteSpace b = false := by
  have hhost : ∀ b ∈ t.host, isWhiteSpace b = false := fun b hb =>
    not_white_of_visible (h.isHost.visible b hb)
  cases t with
  | authority host port =>
    have hport : ∀ b ∈ portBytes (some port), isWhiteSpace b = false :=
      portBytes_not_white (by simpa using h.2)
    exact List.forall_mem_append.mpr ⟨by simp [schemeBytes, Target.scheme],
      List.forall_mem_append.mpr ⟨hhost, hport⟩⟩
  | absolute scheme host port path =>
    obtain ⟨-, hdigits, hpath, -⟩ := h
    refine List.forall_mem_append.mpr ⟨scheme.not_white, List.forall_mem_append.mpr ⟨hhost, ?_⟩⟩
    exact List.forall_mem_append.mpr ⟨portBytes_not_white hdigits, fun b hb =>
      not_white_of_visible (hpath b hb)⟩

theorem RequestLine.version_not_white (l : RequestLine) :
    ∀ b ∈ l.version, isWhiteSpace b = false := by
  obtain ⟨major, minor, hdigits, hversion⟩ := l.version_digits
  have hmajor := hdigits.not_white major (by simp)
  have hminor := hdigits.not_white minor (by simp)
  rw [hversion]
  refine List.forall_mem_append.mpr ⟨by decide, ?_⟩
  simp only [List.forall_mem_cons]
  exact ⟨hmajor, rfl, hminor, by simp⟩

open TryReadStartLine in
theorem tryReadStartLine_bytes (culture : CharCase) (l : RequestLine) :
    tryReadStartLine culture l.bytes =
      (readTarget culture l.target.bytes { flags := readMethod l.method, step := 1 } >>= fun r =>
        readVersion l.version r.nextStep) := by
  have hline : CRLF <:+: l.bytes := by
    refine ⟨l.method ++ SP :: (l.target.bytes ++ SP :: l.version), l.following, ?_⟩
    simp [RequestLine.bytes, CRLF]
  obtain ⟨line, hread⟩ : ∃ line, tryReadLine l.bytes = some line := by
    rw [← Option.isSome_iff_exists, tryReadLine, Option.isSome_map]
    exact tryReadLineFrom_isSome hline
  have hmethod : moveNext l.bytes = some (l.method, _) :=
    moveNext_append (fun b hb => not_white_of_visible (l.method_token b hb)) rfl
  have htarget : moveNext (l.target.bytes ++ SP :: (l.version ++ CR :: LF :: l.following)) =
      some (l.target.bytes, _) := moveNext_append l.target_valid.not_white rfl
  have hversion : moveNext (l.version ++ CR :: LF :: l.following) = some (l.version, _) :=
    moveNext_append l.version_not_white rfl
  unfold tryReadStartLine
  simp only [hread, hmethod, htarget, hversion]
  rfl

/-! ### The target -/

section Target
variable (culture : CharCase) {t : Target}

def Scheme.present (flags : EStartLine) : Scheme → EStartLine
  | http => { flags with httpPresented := true }
  | https => { flags with httpsPresented := true }

def Target.schemeFlags (flags : EStartLine) (t : Target) : EStartLine :=
  t.scheme.elim flags fun s => s.scheme.present flags

theorem readScheme_bytes (h : t.Valid) (flags : EStartLine) :
    TryReadStartLine.readScheme culture t.bytes flags =
      (t.schemeFlags flags, t.connectionLine, (schemeBytes t.scheme).length) := by
  unfold TryReadStartLine.readScheme
  cases t with
  | authority host port =>
    have hslash : SLASH ∉ (Target.authority host port).bytes := by
      have hport : SLASH ∉ portBytes (some port) := portBytes_not_slash (by simpa using h.2)
      simp only [Target.bytes, Target.scheme, schemeBytes, Target.connectionLine, Option.elim_none,
        List.nil_append, List.mem_append, not_or]
      exact ⟨h.1.not_slash, hport⟩
    have hhttps := isStartWithCI_no_slash culture hslash httpsArray_ascii (by decide)
    have hhttp := isStartWithCI_no_slash culture hslash httpArray_ascii (by decide)
    rw [hhttp, hhttps]
    rfl
  | absolute s host port path =>
    have hhttps : isStartWithCI culture (Target.absolute s host port path).bytes Urls.httpsArray =
        decide (Scheme.https = s.scheme) := s.isStartWithCI_append culture _ .https
    have hhttp : isStartWithCI culture (Target.absolute s host port path).bytes Urls.httpArray =
        decide (Scheme.http = s.scheme) := s.isStartWithCI_append culture _ .http
    have hdrop : (Target.absolute s host port path).bytes.drop s.scheme.array.length =
        (Target.absolute s host port path).connectionLine := by
      rw [← s.length_eq]
      exact List.drop_left
    rw [hhttps, hhttp]
    change _ = (s.scheme.present flags, _, s.bytes.length)
    rw [s.length_eq]
    cases hs : s.scheme with
    | http =>
      rw [hs] at hdrop
      exact Prod.ext rfl (Prod.ext hdrop rfl)
    | https =>
      rw [hs] at hdrop
      exact Prod.ext rfl (Prod.ext hdrop rfl)

open TryReadStartLine

theorem readTarget_bytes (h : t.Valid) (r : StartLineReadResult) :
    readTarget culture t.bytes r =
      if indexOf COLON t.connectionLine > 0 then do
        let port ← Str.parseInt
          (chars (t.connectionLine.drop ((indexOf COLON t.connectionLine).toNat + 1)))
        .ok { r with
          host := t.bytes.take
            ((indexOf COLON t.connectionLine).toNat + (schemeBytes t.scheme).length)
          port
          flags := { t.schemeFlags r.flags with portPresented := true } }
      else .ok { r with host := t.connectionLine, flags := t.schemeFlags r.flags } := by
  unfold readTarget
  rw [readScheme_bytes culture h]

/-- The first byte of a host is not a colon. -/
theorem indexOf_colon_pos {host rest : List UInt8} (h : IsHost host)
    (hmem : COLON ∈ host ++ rest) : indexOf COLON (host ++ rest) > 0 := by
  rw [indexOf, if_pos hmem]
  cases host with
  | nil => exact absurd rfl h.nonempty
  | cons b host =>
    have hb : b ≠ COLON := by
      rintro rfl
      obtain ⟨address, heq⟩ := h.brackets List.mem_cons_self
      exact absurd (List.cons.inj heq).1 (by decide)
    rw [List.cons_append, List.idxOf_cons_ne _ hb]
    omega

theorem readTarget_authority {host port : List UInt8} (h : (Target.authority host port).Valid)
    (hcolon : COLON ∉ host) (hfits : Str.decimal (chars port) < 2 ^ 31) (r : StartLineReadResult) :
    readTarget culture (Target.authority host port).bytes r =
      .ok { r with
        host
        port := Str.decimal (chars port)
        flags := { r.flags with portPresented := true } } := by
  have hindex : indexOf COLON (Target.authority host port).connectionLine = host.length :=
    indexOf_append hcolon port
  have hpos : indexOf COLON (Target.authority host port).connectionLine > 0 :=
    indexOf_colon_pos h.1 (by simp)
  have hdrop : (Target.authority host port).connectionLine.drop (host.length + 1) = port := by
    rw [Target.connectionLine, List.append_cons, List.drop_left' (by simp)]
  have htake : (Target.authority host port).bytes.take (host.length + 0) = host := List.take_left
  rw [readTarget_bytes culture h, if_pos hpos, hindex, Int.toNat_natCast, hdrop,
    parseInt_digits h.2 hfits]
  simp only [Target.scheme, schemeBytes, Option.elim_none, List.length_nil, htake]
  rfl

theorem readTarget_plain {s : WrittenScheme} {host : List UInt8}
    (h : (Target.absolute s host none []).Valid) (hcolon : COLON ∉ host)
    (r : StartLineReadResult) :
    readTarget culture (Target.absolute s host none []).bytes r =
      .ok { r with host, flags := s.scheme.present r.flags } := by
  have hline : (Target.absolute s host none []).connectionLine = host := List.append_nil _
  rw [readTarget_bytes culture h, hline, indexOf_of_not_mem hcolon, if_neg (by decide)]
  rfl

/-- The host has no colon of its own; a port of an authority is an `int`, and behind a scheme there
is neither a port nor a path. -/
def Target.Plain (t : Target) : Prop :=
  COLON ∉ t.host ∧
    match t with
    | authority _ port => Str.decimal (chars port) < 2 ^ 31
    | absolute _ _ port path => port = none ∧ path = []

theorem decimal_of_parseInt {digits : List UInt8} (h : IsDigits digits) {z : ℤ}
    (hparse : Str.parseInt (chars digits) = .ok z) : Str.decimal (chars digits) < 2 ^ 31 := by
  have hends : ∀ b, digits.head? = some b ∨ digits.getLast? = some b → b ≠ 0x20 ∧ b ≠ 0x09 :=
    fun b hb => (h.fieldByte b (hb.elim List.mem_of_head? List.mem_of_getLast?)).2
  obtain ⟨hvalue, -, hhigh⟩ :=
    (parseInt_value (fun b hb => (h.fieldByte b hb).1) hends z).mp hparse
  rw [number_digits h] at hvalue
  cases hvalue
  omega

/-- Where there is a colon, the host is the scheme with what is before the colon, and what is
behind it is a number. -/
theorem readTarget_colon (h : t.Valid) {r r' : StartLineReadResult}
    (hread : readTarget culture t.bytes r = .ok r') (hmem : COLON ∈ t.connectionLine) :
    r'.host = schemeBytes t.scheme ++ t.connectionLine.take (t.connectionLine.idxOf COLON) ∧
      ∃ z, Str.parseInt (chars (t.connectionLine.drop (t.connectionLine.idxOf COLON + 1))) =
        .ok z := by
  have hindex : indexOf COLON t.connectionLine = t.connectionLine.idxOf COLON := if_pos hmem
  have hpos : indexOf COLON t.connectionLine > 0 := by
    cases t with
    | authority host port => exact indexOf_colon_pos h.isHost hmem
    | absolute s host port path => exact indexOf_colon_pos h.isHost hmem
  rw [readTarget_bytes culture h, if_pos hpos, hindex, Int.toNat_natCast] at hread
  obtain ⟨z, hparse, hok⟩ := do_ok_iff.mp hread
  cases hok
  constructor
  · dsimp only
    rw [Nat.add_comm]
    exact List.take_length_add_append _
  · exact ⟨z, hparse⟩

theorem readTarget_no_colon (h : t.Valid) {r r' : StartLineReadResult}
    (hread : readTarget culture t.bytes r = .ok r') (hmem : COLON ∉ t.connectionLine) :
    r'.host = t.connectionLine := by
  rw [readTarget_bytes culture h, indexOf_of_not_mem hmem, if_neg (by decide)] at hread
  cases hread
  rfl

/-- Where the host is the one that is written, the target is plain. -/
theorem plain_of_host (h : t.Valid) {r r' : StartLineReadResult}
    (hread : readTarget culture t.bytes r = .ok r') (hhost : r'.host = t.host) : t.Plain := by
  cases t with
  | authority host port =>
    have hmem : COLON ∈ (Target.authority host port).connectionLine := by
      simp [Target.connectionLine]
    obtain ⟨htaken, z, hparse⟩ := readTarget_colon culture h hread hmem
    rw [hhost] at htaken
    have hcolon : COLON ∉ host := by
      intro hin
      have hlt := List.idxOf_lt_length_of_mem hin
      have hlength := congrArg List.length htaken
      simp only [Target.host, Target.scheme, schemeBytes, Option.elim_none, List.nil_append,
        Target.connectionLine, List.idxOf_append_of_mem hin, List.length_take] at hlength
      omega
    have hdrop : (Target.authority host port).connectionLine.drop (host.length + 1) = port := by
      rw [Target.connectionLine, List.append_cons, List.drop_left' (by simp)]
    have hindex : (Target.authority host port).connectionLine.idxOf COLON = host.length := by
      rw [Target.connectionLine, List.idxOf_append_of_notMem hcolon, List.idxOf_cons_self,
        Nat.add_zero]
    rw [hindex, hdrop] at hparse
    exact ⟨hcolon, decimal_of_parseInt h.2 hparse⟩
  | absolute s host port path =>
    by_cases hmem : COLON ∈ (Target.absolute s host port path).connectionLine
    · obtain ⟨htaken, -⟩ := readTarget_colon culture h hread hmem
      rw [hhost] at htaken
      -- the scheme that is kept has a slash
      have hslash : SLASH ∈ host := by
        change host = s.bytes ++ _ at htaken
        rw [htaken]
        exact List.mem_append_left _ s.slash_mem
      exact absurd hslash h.1.not_slash
    · have hline := readTarget_no_colon culture h hread hmem
      rw [hhost] at hline
      have hbehind : portBytes port ++ path = [] := List.self_eq_append_right.mp hline
      obtain ⟨hport, hpath⟩ := List.append_eq_nil_iff.mp hbehind
      constructor
      · intro hin
        exact hmem (List.mem_append_left _ hin)
      · cases port with
        | none => exact ⟨rfl, hpath⟩
        | some p => cases hport

theorem readMethod_scheme (method : List UInt8) :
    (readMethod method).portPresented = false ∧ (readMethod method).httpsPresented = false := by
  unfold readMethod
  split_ifs <;> exact ⟨rfl, rfl⟩

theorem readTarget_of_plain (h : t.Valid) (hplain : t.Plain) (method : List UInt8) :
    ∃ r, readTarget culture t.bytes { flags := readMethod method, step := 1 } = .ok r ∧
      r.host = t.host ∧ r.portOrDefault = .ok t.portOrDefault ∧
      (r.port = t.portOrDefault ↔ t.scheme = none) ∧
      ∀ m, r.flags.Names m ↔ (readMethod method).Names m := by
  cases t with
  | authority host port =>
    have hread := readTarget_authority culture h hplain.1 hplain.2
      { flags := readMethod method, step := 1 }
    exact ⟨_, hread, rfl, rfl, iff_of_true rfl rfl, fun m => Iff.rfl⟩
  | absolute s host port path =>
    obtain ⟨hcolon, rfl, rfl⟩ := hplain
    have hread := readTarget_plain culture h hcolon { flags := readMethod method, step := 1 }
    obtain ⟨hport, hhttps⟩ := readMethod_scheme method
    refine ⟨_, hread, rfl, ?_, ?_, ?_⟩
    · cases hs : s.scheme <;>
        simp [StartLineReadResult.portOrDefault, Scheme.present, Target.portOrDefault, hport,
          hhttps, hs, Scheme.defaultPort]
    · apply iff_of_false
      · change (0 : ℤ) ≠ s.scheme.defaultPort
        cases s.scheme <;> decide
      · exact Option.some_ne_none s
    · intro m
      cases s.scheme <;> rfl

end Target

theorem compareWith_iff {mem : List UInt8} {s : String} (hs : chars (asciiBytes s) = ascii s) :
    compareWith mem (ascii s) = true ↔ mem = asciiBytes s := by
  rw [compareWith, decide_eq_true_iff, ← hs]
  exact (List.map_injective_iff.mpr fun _ _ => UInt8.toUInt16_inj.mp).eq_iff

theorem names_readMethod (method : List UInt8) :
    (TryReadStartLine.readMethod method).Names method ↔
      method ∈ [asciiBytes "CONNECT", asciiBytes "GET", asciiBytes "POST"] := by
  have hconnect : compareWith method (ascii "CONNECT") = true ↔ method = asciiBytes "CONNECT" :=
    compareWith_iff (by decide)
  have hget : compareWith method (ascii "GET") = true ↔ method = asciiBytes "GET" :=
    compareWith_iff (by decide)
  have hpost : compareWith method (ascii "POST") = true ↔ method = asciiBytes "POST" :=
    compareWith_iff (by decide)
  unfold TryReadStartLine.readMethod EStartLine.Names
  simp only [hconnect, hget, hpost]
  split_ifs with h₁ h₂ h₃
  · simp [h₁]
  · simp [h₂]
  · simp [h₃]
  · simp [h₁, h₂, h₃]

theorem readVersion_ok_iff {version : List UInt8} {r r' : StartLineReadResult} :
    TryReadStartLine.readVersion version r = .ok (true, r') ↔
      version = ConstantsForHttp.memVersion11 ∧ r' = { r with httpVersion := .version11 } := by
  unfold TryReadStartLine.readVersion
  split_ifs with hversion
  · simp [hversion, eq_comm]
  · simp [hversion]

def RequestLine.Plain (l : RequestLine) : Prop :=
  l.method ∈ [asciiBytes "CONNECT", asciiBytes "GET", asciiBytes "POST"] ∧ l.target.Plain ∧
    l.version = ConstantsForHttp.memVersion11

theorem tryReadStartLine_ok_iff (culture : CharCase) (l : RequestLine) {r : StartLineReadResult} :
    tryReadStartLine culture l.bytes = .ok (true, r) ↔
      ∃ r', TryReadStartLine.readTarget culture l.target.bytes
          { flags := TryReadStartLine.readMethod l.method, step := 1 } = .ok r' ∧
        l.version = ConstantsForHttp.memVersion11 ∧
        r = { r'.nextStep with httpVersion := .version11 } := by
  rw [tryReadStartLine_bytes, do_ok_iff]
  simp only [readVersion_ok_iff]

/-- Whichever way the port is told, a line that is read is plain. -/
theorem ReadsLine.plain {culture : CharCase} {l : RequestLine}
    {port : StartLineReadResult → Except Fault ℤ} (h : ReadsLine culture l port) : l.Plain := by
  obtain ⟨r, hok, hsays⟩ := h
  obtain ⟨r', hread, hversion, rfl⟩ := (tryReadStartLine_ok_iff culture l).mp hok
  have hplain : l.target.Plain := plain_of_host culture l.target_valid hread hsays.host
  obtain ⟨r'', hread', -, -, -, hnames⟩ :=
    readTarget_of_plain culture l.target_valid hplain l.method
  cases hread.symm.trans hread'
  have hmethod := (hnames l.method).mp hsays.method
  exact ⟨(names_readMethod l.method).mp hmethod, hplain, hversion⟩

/-- A plain line is read; the port stands in the result itself only behind an authority. -/
theorem RequestLine.Plain.read (culture : CharCase) {l : RequestLine} (h : l.Plain) :
    ∃ r, tryReadStartLine culture l.bytes = .ok (true, r) ∧
      r.portOrDefault = .ok l.target.portOrDefault ∧
      (r.port = l.target.portOrDefault ↔ l.target.scheme = none) ∧
      ∀ port, port = .ok l.target.portOrDefault → Says l r port := by
  obtain ⟨hmethod, hplain, hversion⟩ := h
  obtain ⟨r, hread, hhost, hdefault, hport, hnames⟩ :=
    readTarget_of_plain culture l.target_valid hplain l.method
  have hok := (tryReadStartLine_ok_iff culture l).mpr ⟨r, hread, hversion, rfl⟩
  have hsays : (TryReadStartLine.readMethod l.method).Names l.method :=
    (names_readMethod l.method).mpr hmethod
  refine ⟨_, hok, hdefault, hport, ?_⟩
  intro port heq
  exact ⟨hhost, heq, (hnames l.method).mpr hsays, hversion.symm⟩

/-- Where the port is taken with its flags, as the processor does, the lines that are read as they
say are the plain ones; by the port of the result alone they are those of `CONNECT`. -/
theorem readsLine_iff (culture : CharCase) (l : RequestLine) :
    (ReadsLine culture l StartLineReadResult.portOrDefault ↔ l.Plain) ∧
      (ReadsLine culture l (fun r => .ok r.port) ↔ l.Plain ∧ l.target.scheme = none) := by
  constructor
  · constructor
    · exact ReadsLine.plain
    · intro hplain
      obtain ⟨r, hok, hdefault, -, hsays⟩ := hplain.read culture
      exact ⟨r, hok, hsays _ hdefault⟩
  · constructor
    · intro hreads
      have hplain := hreads.plain
      obtain ⟨r, hok, -, hport, -⟩ := hplain.read culture
      obtain ⟨r', hok', hsays⟩ := hreads
      cases hok.symm.trans hok'
      exact ⟨hplain, hport.mp (Except.ok.inj hsays.port)⟩
    · intro ⟨hplain, hscheme⟩
      obtain ⟨r, hok, -, hport, hsays⟩ := hplain.read culture
      exact ⟨r, hok, hsays _ (congrArg Except.ok (hport.mpr hscheme))⟩

/-- `GET http://example.org:8080/ HTTP/1.1` -/
def lineWithPort : RequestLine where
  method := asciiBytes "GET"
  target := .absolute ⟨.http, asciiBytes "http://", by decide⟩ (asciiBytes "example.org")
    (some (asciiBytes "8080")) (asciiBytes "/")
  version := asciiBytes "HTTP/1.1"
  following := []
  method_token := by decide
  target_valid := by
    refine ⟨⟨by decide, by decide, by decide, fun h => absurd h (by decide)⟩, ?_, by decide,
      .inr (by decide)⟩
    intro p hp
    cases hp
    exact ⟨by decide, by decide⟩
  connect := nofun
  version_digits := ⟨0x31, 0x31, ⟨by decide, by decide⟩, by decide⟩

/-- The path is taken for a part of the port. -/
theorem not_readsLine_path :
    tryReadStartLine .invariantGlobalization lineWithPort.bytes = .error (.raised .format) ∧
      ∀ port, ¬ ReadsLine .invariantGlobalization lineWithPort port := by
  have herror : tryReadStartLine .invariantGlobalization lineWithPort.bytes =
      .error (.raised .format) := by decide
  refine ⟨herror, ?_⟩
  intro port ⟨r, hok, _⟩
  rw [herror] at hok
  cases hok

end DecodingProxy.Http
