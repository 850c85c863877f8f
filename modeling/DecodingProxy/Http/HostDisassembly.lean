import DecodingProxy.Buffers.SpanAsString
import DecodingProxy.Http.FieldLines
import Mathlib.Data.Bool.AllAny

/-!
# `HttpHelper.DisassembleHost`

The host is what stands before the first colon behind the scheme. Where there is no colon the
method gives no host, and all that is left is taken for the port.
-/

namespace DecodingProxy.Http
open DecodingProxy.Buffers DecodingProxy.Runtime

def SLASH : UInt8 := 0x2F

namespace Urls

def httpArray : Str := ascii "http://"
def httpsArray : Str := ascii "https://"

end Urls

/-- `Strings.IsStartWithCI`. -/
def isStartWithCI (culture : CharCase) (buffer : List UInt8) (start : Str) : Bool :=
  if buffer.length < start.length then false
  else (start.zip (chars buffer)).all fun p =>
    decide (culture.toLowerInvariant p.1 = culture.toLowerInvariant p.2)

/-- `IndexOf`: -1 where the byte does not occur. -/
def indexOf (c : UInt8) (span : List UInt8) : ℤ := if c ∈ span then span.idxOf c else -1

def isContainDigit (mem : List UInt8) : Bool := (chars mem).any Str.isDigit

structure Url where
  isSchemePresented : Bool
  scheme : List UInt8
  host : List UInt8
  isPortPresented : Bool
  port : List UInt8

/-- The property `Port`. -/
def Url.getPort (url : Url) : Except Fault ℤ := Str.parseInt (chars url.port)

namespace DisassembleHost

def getScheme (culture : CharCase) (slice : List UInt8) :
    (Bool × List UInt8) × List UInt8 :=
  if isStartWithCI culture slice Urls.httpsArray then
    ((true, slice.take Urls.httpsArray.length), slice.drop Urls.httpsArray.length)
  else if isStartWithCI culture slice Urls.httpArray then
    ((true, slice.take Urls.httpArray.length), slice.drop Urls.httpArray.length)
  else ((false, []), slice)

def getHost (slice : List UInt8) : List UInt8 × List UInt8 :=
  let index := indexOf COLON slice
  if index > 0 then (slice.take index.toNat, slice.drop (index.toNat + 1)) else ([], slice)

def getPort (slice : List UInt8) : Bool × List UInt8 := (isContainDigit slice, slice)

end DisassembleHost

def disassembleHost (culture : CharCase) (mem : List UInt8) : Url :=
  let (scheme, slice) := DisassembleHost.getScheme culture mem
  let (host, slice) := DisassembleHost.getHost slice
  let port := DisassembleHost.getPort slice
  { isSchemePresented := scheme.1, scheme := scheme.2, host, isPortPresented := port.1,
    port := port.2 }

/-! ### What is written -/

inductive Scheme
  | http
  | https
  deriving DecidableEq, Repr

def Scheme.array : Scheme → Str
  | .http => Urls.httpArray
  | .https => Urls.httpsArray

def Scheme.defaultPort : Scheme → ℤ
  | .http => 80
  | .https => 443

/-- A scheme with the slashes behind it, in any letter case. -/
structure WrittenScheme where
  scheme : Scheme
  bytes : List UInt8
  spelled : (chars bytes).map Str.lower = scheme.array

/-- `[scheme]host[:port]`. -/
structure HostText where
  scheme : Option WrittenScheme
  host : List UInt8
  port : Option (List UInt8)
  not_colon : COLON ∉ host
  not_slash : SLASH ∉ host
  digits : ∀ p ∈ port, IsDigits p

/-- A port with the colon before it. -/
def portBytes (port : Option (List UInt8)) : List UInt8 := port.elim [] (COLON :: ·)

def schemeBytes (scheme : Option WrittenScheme) : List UInt8 := scheme.elim [] WrittenScheme.bytes

def HostText.bytes (t : HostText) : List UInt8 :=
  schemeBytes t.scheme ++ (t.host ++ portBytes t.port)

/-- The port that is written, or else the one of the scheme. -/
def HostText.portOrDefault (t : HostText) : Option ℤ :=
  match t.port with
  | some digits => some (Str.decimal (chars digits) : ℤ)
  | none => t.scheme.map fun s => s.scheme.defaultPort

/-- The host and the port are those that are written; where nothing tells a port there is none. -/
def Disassembles (culture : CharCase) (t : HostText) : Prop :=
  let url := disassembleHost culture t.bytes
  url.host = t.host ∧
    match t.portOrDefault with
    | some port => url.getPort = .ok port
    | none => url.isPortPresented = false

/-! ### The parts -/

section Start
variable {culture : CharCase} {buffer : List UInt8} {start : Str}

theorem isStartWithCI_iff (hascii : ∀ c ∈ start, c < 0x80) :
    isStartWithCI culture buffer start = true ↔
      start.map Str.lower <+: (chars buffer).map Str.lower := by
  have hfront : isStartWithCI culture buffer start = true ↔
      start.map culture.toLowerInvariant <+: (chars buffer).map culture.toLowerInvariant := by
    unfold isStartWithCI
    split_ifs with hshort
    · have hnot : ¬ start.map culture.toLowerInvariant <+:
          (chars buffer).map culture.toLowerInvariant := by
        intro h
        have hle := h.length_le
        simp only [chars, List.length_map] at hle
        omega
      exact iff_of_false not_false hnot
    · rw [zip_all_iff (by simpa [chars] using hshort), decide_eq_true_iff]
  rw [hfront]
  apply map_prefix_congr
  intro c hc b hb
  obtain ⟨byte, -, rfl⟩ := List.mem_map.mp hb
  exact toLowerInvariant_eq_iff culture (hascii c hc) byte

theorem httpArray_ascii : ∀ c ∈ Urls.httpArray, c < 0x80 :=
  List.all_iff_forall_prop.mp (by decide)

theorem httpsArray_ascii : ∀ c ∈ Urls.httpsArray, c < 0x80 :=
  List.all_iff_forall_prop.mp (by decide)

theorem lower_eq_slash {c : UInt16} (h : Str.lower c = 0x2F) : c = 0x2F := by
  unfold Str.lower at h
  split_ifs at h with hupper
  · have hlow : 0x41 ≤ c.toNat := UInt16.le_iff_toNat_le.mp hupper.1
    have hhigh : c.toNat ≤ 0x5A := UInt16.le_iff_toNat_le.mp hupper.2
    have hvalue := congrArg UInt16.toNat h
    rw [UInt16.toNat_add] at hvalue
    change (c.toNat + 0x20) % 2 ^ 16 = 0x2F at hvalue
    omega
  · exact h

theorem toUInt16_eq_slash {b : UInt8} (h : b.toUInt16 = 0x2F) : b = SLASH := by
  have hvalue := congrArg UInt16.toNat h
  rw [UInt8.toNat_toUInt16] at hvalue
  exact UInt8.toNat_inj.mp hvalue

theorem slash_mem_of_lower (h : 0x2F ∈ (chars buffer).map Str.lower) : SLASH ∈ buffer := by
  obtain ⟨c, hc, hlower⟩ := List.mem_map.mp h
  obtain ⟨b, hb, rfl⟩ := List.mem_map.mp hc
  exact toUInt16_eq_slash (lower_eq_slash hlower) ▸ hb

/-- What has no slash has no scheme. -/
theorem isStartWithCI_no_slash (culture : CharCase) (hslash : SLASH ∉ buffer)
    (hascii : ∀ c ∈ start, c < 0x80) (hstart : 0x2F ∈ start.map Str.lower) :
    isStartWithCI culture buffer start = false := by
  rw [← Bool.not_eq_true, isStartWithCI_iff hascii]
  intro hfront
  exact hslash (slash_mem_of_lower (hfront.subset hstart))

end Start

namespace WrittenScheme
variable (culture : CharCase) (s : WrittenScheme) (rest : List UInt8)

theorem length_eq : s.bytes.length = s.scheme.array.length := by
  have hlength := congrArg List.length s.spelled
  rwa [List.length_map, chars, List.length_map] at hlength

theorem slash_mem : SLASH ∈ s.bytes := by
  apply slash_mem_of_lower
  rw [s.spelled]
  cases s.scheme <;> decide

theorem lower_append :
    (chars (s.bytes ++ rest)).map Str.lower = s.scheme.array ++ (chars rest).map Str.lower := by
  rw [chars, List.map_append, List.map_append]
  exact congrArg (· ++ _) s.spelled

/-- Each array is found at the start of its own scheme only. -/
theorem isStartWithCI_append (scheme : Scheme) :
    isStartWithCI culture (s.bytes ++ rest) scheme.array = decide (scheme = s.scheme) := by
  have hascii : ∀ c ∈ scheme.array, c < 0x80 := by
    cases scheme
    · exact httpArray_ascii
    · exact httpsArray_ascii
  have hlower : scheme.array.map Str.lower = scheme.array := by cases scheme <;> decide
  rw [Bool.eq_iff_iff, isStartWithCI_iff hascii, s.lower_append, hlower, decide_eq_true_iff]
  constructor
  · intro hfront
    have hboth := List.prefix_or_prefix_of_prefix hfront (List.prefix_append s.scheme.array _)
    revert hboth
    cases scheme <;> cases s.scheme <;> decide
  · intro heq
    rw [heq]
    exact List.prefix_append _ _

theorem getScheme_append :
    DisassembleHost.getScheme culture (s.bytes ++ rest) = ((true, s.bytes), rest) := by
  have hhttps : isStartWithCI culture (s.bytes ++ rest) Urls.httpsArray =
      decide (Scheme.https = s.scheme) := s.isStartWithCI_append culture rest .https
  have hhttp : isStartWithCI culture (s.bytes ++ rest) Urls.httpArray =
      decide (Scheme.http = s.scheme) := s.isStartWithCI_append culture rest .http
  have htake : (s.bytes ++ rest).take s.scheme.array.length = s.bytes := by
    rw [← s.length_eq, List.take_left]
  have hdrop : (s.bytes ++ rest).drop s.scheme.array.length = rest := by
    rw [← s.length_eq, List.drop_left]
  unfold DisassembleHost.getScheme
  rw [hhttps, hhttp]
  cases hs : s.scheme with
  | http =>
    rw [hs] at htake hdrop
    exact Prod.ext (Prod.ext rfl htake) hdrop
  | https =>
    rw [hs] at htake hdrop
    exact Prod.ext (Prod.ext rfl htake) hdrop

end WrittenScheme

theorem indexOf_append {c : UInt8} {a : List UInt8} (h : c ∉ a) (rest : List UInt8) :
    indexOf c (a ++ c :: rest) = a.length := by
  rw [indexOf, if_pos (by simp), List.idxOf_append_of_notMem h, List.idxOf_cons_self, Nat.add_zero]

theorem indexOf_of_not_mem {c : UInt8} {a : List UInt8} (h : c ∉ a) : indexOf c a = -1 :=
  if_neg h

theorem portBytes_not_slash {port : Option (List UInt8)} (h : ∀ p ∈ port, IsDigits p) :
    SLASH ∉ portBytes port := by
  cases port with
  | none => exact List.not_mem_nil
  | some p =>
    have hdigits := h p rfl
    intro hmem
    rcases List.mem_cons.mp hmem with heq | hmem
    · exact absurd heq (by decide)
    · exact absurd (hdigits.2 _ hmem).1 (by decide)

namespace HostText
variable (culture : CharCase) (t : HostText)

theorem getScheme_bytes :
    DisassembleHost.getScheme culture t.bytes =
      ((t.scheme.isSome, schemeBytes t.scheme), t.host ++ portBytes t.port) := by
  unfold DisassembleHost.getScheme bytes
  cases t.scheme with
  | none =>
    have hslash : SLASH ∉ t.host ++ portBytes t.port := by
      rw [List.mem_append, not_or]
      exact ⟨t.not_slash, portBytes_not_slash t.digits⟩
    have hhttps := isStartWithCI_no_slash culture hslash httpsArray_ascii (by decide)
    have hhttp := isStartWithCI_no_slash culture hslash httpArray_ascii (by decide)
    simp [schemeBytes, hhttps, hhttp]
  | some s => exact s.getScheme_append culture _

/-- What is behind the scheme is cut by `GetHost`. -/
theorem disassembleHost_bytes {host slice : List UInt8}
    (h : DisassembleHost.getHost (t.host ++ portBytes t.port) = (host, slice)) :
    disassembleHost culture t.bytes =
      ⟨t.scheme.isSome, schemeBytes t.scheme, host, isContainDigit slice, slice⟩ := by
  unfold disassembleHost
  rw [t.getScheme_bytes]
  dsimp only
  rw [h]
  rfl

theorem getHost_port {p : List UInt8} (hport : t.port = some p) (hne : t.host ≠ []) :
    DisassembleHost.getHost (t.host ++ portBytes t.port) = (t.host, p) := by
  have hpos : (t.host.length : ℤ) > 0 := by
    have hlength := List.length_pos_of_ne_nil hne
    omega
  have hbytes : t.host ++ portBytes t.port = t.host ++ COLON :: p := by rw [hport]; rfl
  unfold DisassembleHost.getHost
  rw [hbytes]
  dsimp only
  rw [indexOf_append t.not_colon, if_pos hpos, Int.toNat_natCast, List.take_left,
    List.append_cons, List.drop_left' (by simp)]

theorem getHost_port_only {p : List UInt8} (hport : t.port = some p) (hnil : t.host = []) :
    DisassembleHost.getHost (t.host ++ portBytes t.port) = ([], COLON :: p) := by
  have hbytes : t.host ++ portBytes t.port = [] ++ COLON :: p := by rw [hport, hnil]; rfl
  unfold DisassembleHost.getHost
  rw [hbytes]
  dsimp only
  rw [indexOf_append List.not_mem_nil, if_neg (by simp), List.nil_append]

theorem getHost_none (hport : t.port = none) :
    DisassembleHost.getHost (t.host ++ portBytes t.port) = ([], t.host) := by
  have happend : t.host ++ portBytes t.port = t.host := by
    rw [hport]
    exact List.append_nil _
  rw [happend]
  exact if_neg (by rw [indexOf_of_not_mem t.not_colon]; decide)

end HostText

/-- The host and the port are found exactly if a port is written behind a host, as an `int`; or
if nothing is written at all. -/
theorem disassembles_iff (culture : CharCase) (t : HostText) :
    Disassembles culture t ↔
      (t.host ≠ [] ∧ ∃ p, t.port = some p ∧ Str.decimal (chars p) < 2 ^ 31) ∨
        t.scheme = none ∧ t.host = [] ∧ t.port = none := by
  unfold Disassembles HostText.portOrDefault
  cases hport : t.port with
  | none =>
    rw [t.disassembleHost_bytes culture (t.getHost_none hport)]
    cases hscheme : t.scheme with
    | none =>
      constructor
      · intro ⟨hhost, _⟩
        exact .inr ⟨rfl, hhost.symm, rfl⟩
      · rintro (⟨-, p, hp, -⟩ | ⟨-, hnil, -⟩)
        · cases hp
        · exact ⟨hnil.symm, by rw [hnil]; rfl⟩
    | some s =>
      constructor
      · intro ⟨hhost, hparse⟩
        have hnil : t.host = [] := hhost.symm
        rw [hnil] at hparse
        cases hparse
      · rintro (⟨-, p, hp, -⟩ | ⟨hnone, -⟩)
        · cases hp
        · cases hnone
  | some p =>
    have hdigits := t.digits p hport
    by_cases hnil : t.host = []
    · rw [t.disassembleHost_bytes culture (t.getHost_port_only hport hnil)]
      refine iff_of_false ?_ ?_
      · intro ⟨_, hparse⟩
        cases hparse
      · rintro (⟨hne, -⟩ | ⟨-, -, hnone⟩)
        · exact hne hnil
        · cases hnone
    · rw [t.disassembleHost_bytes culture (t.getHost_port hport hnil)]
      constructor
      · intro ⟨_, hparse⟩
        have hrange := parseInt_range (s := chars p) hparse
        exact .inl ⟨hnil, p, rfl, by omega⟩
      · rintro (⟨-, p', hp, hfits⟩ | ⟨-, -, hnone⟩)
        · cases hp
          exact ⟨rfl, parseInt_digits hdigits hfits⟩
        · cases hnone

/-- `https://example.org` -/
def textWithoutPort : HostText where
  scheme := some ⟨.https, asciiBytes "https://", by decide⟩
  host := asciiBytes "example.org"
  port := none
  not_colon := by decide
  not_slash := by decide
  digits := by simp

/-- The name is taken for the port, and no host is given. -/
theorem not_disassembles_no_port :
    (disassembleHost .invariantGlobalization textWithoutPort.bytes).host = [] ∧
      (disassembleHost .invariantGlobalization textWithoutPort.bytes).getPort =
        .error (.raised .format) ∧
      ¬ Disassembles .invariantGlobalization textWithoutPort := by
  refine ⟨by decide, by decide, fun h => ?_⟩
  exact absurd h.1 (by decide)

end DecodingProxy.Http
