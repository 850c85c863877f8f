import DecodingProxy.Http.HostFinders
import DecodingProxy.Http.StartLine

/-!
# Where `HttpProxyProcessor` connects to

The host and the port that the start line gives are replaced by those that `DisassembleHost` makes
of the `Host` field. For a request whose field repeats what its target says, this is the origin only
where a port is written.
-/

namespace DecodingProxy.Http
open DecodingProxy.Buffers DecodingProxy.Runtime DecodingProxy.Runs DecodingProxy.Splits

structure Origin where
  host : List UInt8
  port : ℤ
  deriving DecidableEq, Repr

def Url.portOr (url : Url) (port : ℤ) : Except Fault ℤ :=
  if url.isPortPresented then url.getPort else .ok port

/-- The part of `HandleSocket` between the first request and `Dns.GetHostAddressesAsync`; `none`
where the start line is not read. -/
def HttpProxyProcessor.findOrigin (culture : CharCase) (memWithMsg : List UInt8) :
    Except Fault (Option Origin) := do
  let (isRead, startLine) ← tryReadStartLine culture memWithMsg
  if isRead then
    let port ← startLine.portOrDefault
    let found ← tryFindHostFeild culture memWithMsg
    match found with
    | none => .ok (some ⟨startLine.host, port⟩)
    | some hostFromField =>
      let url := disassembleHost culture (hostFromField.bytes memWithMsg)
      let port ← url.portOr port
      .ok (some ⟨url.host, port⟩)
  else .ok none

/-! ### Requests with a `Host` field -/

namespace Target

def port : Target → Option (List UInt8)
  | authority _ port => some port
  | absolute _ _ port _ => port

def path : Target → List UInt8
  | authority _ _ => []
  | absolute _ _ _ path => path

/-- `host[:port]`. -/
def authorityBytes (t : Target) : List UInt8 := t.host ++ portBytes t.port

end Target

/-- A line in front of the field. -/
structure IsOtherLine (line : List UInt8) : Prop where
  no_end : ¬ CRLF <:+: line
  other : ¬ ascii "host: " <+: (chars line).map Str.lower

/-- A request of a method that `HandleSocket` goes on with. The value of its first `Host` field is
the authority of its target. -/
structure HostedRequest extends RequestLine where
  lines : List (List UInt8)
  name : List UInt8
  rest : List UInt8
  method_known : method ∈ [asciiBytes "CONNECT", asciiBytes "GET"]
  lines_other : ∀ line ∈ lines, IsOtherLine line
  name_spelled : (chars name).map Str.lower = ascii "host: "
  following_eq : following =
    lines.flatMap (· ++ CRLF) ++ (name ++ target.authorityBytes ++ CRLF ++ rest)

/-! ### The field that is found -/

section Find
variable {text line rest : List UInt8} {pieces : List (List UInt8)}

/-- CR and LF differ, and so no line end begins in a line. -/
theorem firstAt_line (h : ¬ CRLF <:+: line) (rest : List UInt8) :
    FirstAt CRLF (line ++ CRLF ++ rest) line rest := by
  refine ⟨rfl, fun j hj hstarts => ?_⟩
  rw [List.append_assoc, List.drop_append_of_le_length hj.le] at hstarts
  have hpos : (line.drop j).length = line.length - j := List.length_drop
  cases hdrop : line.drop j with
  | nil =>
    rw [hdrop, List.length_nil] at hpos
    omega
  | cons b tail =>
    rw [hdrop] at hstarts
    cases tail with
    | nil =>
      obtain ⟨-, hlf, -⟩ := List.cons_prefix_cons.mp hstarts |>.imp_right List.cons_prefix_cons.mp
      exact absurd hlf (by decide)
    | cons c tail =>
      have hfront : CRLF <+: line.drop j := by
        rw [hdrop]
        obtain ⟨hb, hc, -⟩ :=
          List.cons_prefix_cons.mp hstarts |>.imp_right List.cons_prefix_cons.mp
        exact List.cons_prefix_cons.mpr ⟨hb, List.cons_prefix_cons.mpr ⟨hc, List.nil_prefix⟩⟩
      exact h (hfront.isInfix.trans (List.drop_suffix _ _).isInfix)

theorem splits_lines (lines : List (List UInt8)) (h : ∀ line ∈ lines, ¬ CRLF <:+: line)
    (hrest : SplitsInto CRLF rest pieces) :
    SplitsInto CRLF (lines.flatMap (· ++ CRLF) ++ rest) (lines ++ pieces) := by
  induction lines with
  | nil => exact hrest
  | cons line lines ih =>
    obtain ⟨hline, hlines⟩ := List.forall_mem_cons.mp h
    rw [List.flatMap_cons, List.append_assoc]
    exact .cons (firstAt_line hline _) (ih hlines)

theorem sliceFrom_bytes {source : List UInt8} {mem mem' : Mem} {start : ℕ}
    (h : mem.sliceFrom start = .ok mem') : mem'.bytes source = (mem.bytes source).drop start := by
  unfold Mem.sliceFrom at h
  split_ifs at h with hlong
  cases h
  rw [Mem.bytes, Mem.bytes, List.drop_take, List.drop_drop]

/-- What is found among the places of the pieces is found among the pieces. -/
theorem find_places (q : List UInt8 → Bool) (source : List UInt8) (start : ℕ)
    (h : SplitsInto CRLF text pieces) (htext : source.drop start = text) :
    ((places start pieces).dropLast.find? fun mem => q (mem.bytes source)).map
      (·.bytes source) = pieces.dropLast.find? q := by
  induction h generalizing start with
  | last hnone => rfl
  | @cons text piece rest pieces hline hrest ih =>
    have hpiece : Mem.bytes source ⟨start, piece.length⟩ = piece := by
      rw [Mem.bytes, htext]
      exact hline.take_eq
    have hnext : source.drop (start + piece.length + 2) = rest := by
      have hdrop := hline.starts
      rw [← htext, List.drop_drop] at hdrop
      calc source.drop (start + piece.length + 2)
        _ = (source.drop (start + piece.length)).drop 2 := List.drop_drop.symm
        _ = (CRLF ++ rest).drop 2 := by rw [hdrop]
        _ = rest := rfl
    obtain ⟨second, others, rfl⟩ := List.exists_cons_of_ne_nil hrest.ne_nil
    rw [dropLast_places start piece hrest.ne_nil, List.find?_cons, hpiece,
      List.dropLast_cons_of_ne_nil hrest.ne_nil, List.find?_cons]
    cases q piece with
    | true => simp [hpiece]
    | false => exact ih _ hnext

end Find

namespace HostedRequest
variable (culture : CharCase) (r : HostedRequest)

def first : List UInt8 := r.method ++ SP :: (r.target.bytes ++ SP :: r.version)

theorem first_visible {b : UInt8} (hb : b ∈ r.first) : isWhiteSpace b = false ∨ b = SP := by
  have hmethod : ∀ b ∈ r.method, isWhiteSpace b = false := fun b hb =>
    not_white_of_visible (r.method_token b hb)
  rcases List.mem_append.mp hb with hb | hb
  · exact .inl (hmethod b hb)
  rcases List.mem_cons.mp hb with rfl | hb
  · exact .inr rfl
  rcases List.mem_append.mp hb with hb | hb
  · exact .inl (r.target_valid.not_white b hb)
  rcases List.mem_cons.mp hb with rfl | hb
  · exact .inr rfl
  · exact .inl (r.version_not_white b hb)

theorem first_other : IsOtherLine r.first where
  no_end h := by
    have hcr : CR ∈ r.first := h.subset List.mem_cons_self
    rcases r.first_visible hcr with hwhite | hsp
    · exact absurd hwhite (by decide)
    · exact absurd hsp (by decide)
  other h := by
    obtain ⟨tail, htail⟩ : ∃ tail, r.first = r.method ++ tail := ⟨_, rfl⟩
    rw [htail] at h
    have hmethods := r.method_known
    simp only [List.mem_cons, List.not_mem_nil, or_false] at hmethods
    rcases hmethods with hmethod | hmethod
    · rw [hmethod] at h
      exact absurd (List.cons_prefix_cons.mp h).1 (by decide)
    · rw [hmethod] at h
      exact absurd (List.cons_prefix_cons.mp h).1 (by decide)

theorem length_name : r.name.length = charsHost.length := by
  have hlength := congrArg List.length r.name_spelled
  rwa [List.length_map, chars, List.length_map] at hlength

theorem name_not_cr : CR ∉ r.name := by
  intro hcr
  have hlower : Str.lower CR.toUInt16 ∈ ascii "host: " := by
    rw [← r.name_spelled]
    exact List.mem_map_of_mem (List.mem_map_of_mem hcr)
  exact absurd hlower (by decide)

theorem authority_not_cr : CR ∉ r.target.authorityBytes := by
  intro hcr
  rcases List.mem_append.mp hcr with hcr | hcr
  · exact absurd (r.target_valid.isHost.visible _ hcr) (by decide)
  · have hwhite : isWhiteSpace CR = false := by
      cases htarget : r.target with
      | authority host port =>
        rw [htarget] at hcr
        have hvalid := r.target_valid
        rw [htarget] at hvalid
        exact portBytes_not_white (by simpa [Target.port] using hvalid.2) _ hcr
      | absolute scheme host port path =>
        rw [htarget] at hcr
        have hvalid := r.target_valid
        rw [htarget] at hvalid
        exact portBytes_not_white hvalid.2.1 _ hcr
    exact absurd hwhite (by decide)

theorem starts_name (culture : CharCase) (value : List UInt8) :
    isStartWithCI culture (r.name ++ value) charsHost = true := by
  rw [isStartWithCI_charsHost, chars, List.map_append, List.map_append]
  exact ⟨_, congrArg (· ++ _) r.name_spelled.symm⟩

theorem tryFindHostFeild_authority :
    ∃ mem, tryFindHostFeild culture r.bytes = .ok (some mem) ∧
      mem.bytes r.bytes = r.target.authorityBytes := by
  obtain ⟨pieces, hpieces⟩ := exists_splits r.rest
  have hauthority : ¬ CRLF <:+: r.name ++ r.target.authorityBytes := by
    intro h
    rcases List.mem_append.mp (h.subset List.mem_cons_self) with hcr | hcr
    · exact r.name_not_cr hcr
    · exact r.authority_not_cr hcr
  have hsplit : SplitsInto CRLF r.bytes
      (r.first :: (r.lines ++ (r.name ++ r.target.authorityBytes) :: pieces)) := by
    have hbytes : r.bytes = [r.first].flatMap (· ++ CRLF) ++ (r.lines.flatMap (· ++ CRLF) ++
        (r.name ++ r.target.authorityBytes ++ CRLF ++ r.rest)) := by
      rw [RequestLine.bytes, r.following_eq, first]
      simp [CRLF]
    rw [hbytes]
    refine splits_lines [r.first] (by simpa using r.first_other.no_end) ?_
    refine splits_lines r.lines (fun line hline => (r.lines_other line hline).no_end) ?_
    exact .cons (firstAt_line hauthority _) hpieces
  have hfind :
      (r.first :: (r.lines ++ (r.name ++ r.target.authorityBytes) :: pieces)).dropLast.find?
        (isStartWithCI culture · charsHost) = some (r.name ++ r.target.authorityBytes) := by
    have hnot : ∀ line, IsOtherLine line → ¬ isStartWithCI culture line charsHost = true :=
      fun line hline hstart => hline.other (isStartWithCI_charsHost.mp hstart)
    rw [← List.cons_append, List.dropLast_append_cons, List.find?_append,
      List.find?_eq_none.mpr, Option.none_or, List.dropLast_cons_of_ne_nil hpieces.ne_nil,
      List.find?_cons, r.starts_name]
    intro line hline
    rcases List.mem_cons.mp hline with rfl | hline
    · exact hnot _ r.first_other
    · exact hnot _ (r.lines_other line hline)
  have hplaces := find_places (isStartWithCI culture · charsHost) r.bytes 0 hsplit List.drop_zero
  rw [hfind] at hplaces
  obtain ⟨mem, hmem, hbytes⟩ := Option.map_eq_some_iff.mp hplaces
  have hlong : ¬ mem.length < charsHost.length := by
    have hlength := congrArg List.length hbytes
    rw [Mem.bytes, List.length_take, List.length_append, r.length_name] at hlength
    omega
  have hslice : mem.sliceFrom charsHost.length =
      .ok ⟨mem.start + charsHost.length, mem.length - charsHost.length⟩ := if_neg hlong
  refine ⟨⟨mem.start + charsHost.length, mem.length - charsHost.length⟩, ?_, ?_⟩
  · rw [tryFindHostFeild_eq culture hsplit, hmem, cutHost, do_of_ok hslice]
  · rw [sliceFrom_bytes hslice, hbytes, ← r.length_name, List.drop_left]

end HostedRequest

/-! ### The origin -/

section Authority
variable (culture : CharCase) {t : Target}

/-- An authority has no scheme, and is cut at its first colon. -/
theorem disassembleHost_authority (h : t.Valid) :
    disassembleHost culture t.authorityBytes =
      (let (host, slice) := DisassembleHost.getHost t.authorityBytes
       ⟨false, [], host, isContainDigit slice, slice⟩) := by
  have hport : SLASH ∉ portBytes t.port := by
    cases t with
    | authority host port => exact portBytes_not_slash (by simpa [Target.port] using h.2)
    | absolute scheme host port path => exact portBytes_not_slash h.2.1
  have hslash : SLASH ∉ t.authorityBytes := by
    rw [Target.authorityBytes, List.mem_append, not_or]
    exact ⟨h.isHost.not_slash, hport⟩
  have hhttps := isStartWithCI_no_slash culture hslash httpsArray_ascii (by decide)
  have hhttp := isStartWithCI_no_slash culture hslash httpArray_ascii (by decide)
  unfold disassembleHost DisassembleHost.getScheme
  rw [hhttps, hhttp]
  rfl

theorem connectionLine_eq (t : Target) : t.connectionLine = t.authorityBytes ++ t.path := by
  cases t with
  | authority host port => exact (List.append_nil _).symm
  | absolute scheme host port path => exact (List.append_assoc _ _ _).symm

theorem Target.Valid.digits (h : t.Valid) : ∀ p ∈ t.port, IsDigits p := by
  cases t with
  | authority host port => simpa [Target.port] using h.2
  | absolute scheme host port path => exact h.2.1

theorem Target.Valid.path (h : t.Valid) :
    (∀ b ∈ t.path, IsVisible b) ∧ (t.path = [] ∨ t.path.head? = some SLASH) := by
  cases t with
  | authority host port => exact ⟨by simp [Target.path], .inl rfl⟩
  | absolute scheme host port path => exact ⟨h.2.2.1, h.2.2.2⟩

/-- A host with colons is cut in the middle. -/
theorem getHost_colon (h : t.Valid) (hcolon : COLON ∈ t.host) :
    (DisassembleHost.getHost t.authorityBytes).1 ≠ t.host := by
  have hindex : indexOf COLON t.authorityBytes = t.host.idxOf COLON := by
    rw [Target.authorityBytes, indexOf, if_pos (List.mem_append_left _ hcolon),
      List.idxOf_append_of_mem hcolon]
  have hpos : indexOf COLON t.authorityBytes > 0 :=
    indexOf_colon_pos h.isHost (List.mem_append_left _ hcolon)
  have hlt := List.idxOf_lt_length_of_mem hcolon
  unfold DisassembleHost.getHost
  dsimp only
  rw [if_pos hpos, hindex, Int.toNat_natCast]
  intro heq
  have hlength := congrArg List.length heq
  rw [List.length_take] at hlength
  omega

theorem getHost_no_port (hcolon : COLON ∉ t.host) (hport : t.port = none) :
    DisassembleHost.getHost t.authorityBytes = ([], t.host) := by
  have hbytes : t.authorityBytes = t.host := by
    rw [Target.authorityBytes, hport]
    exact List.append_nil _
  rw [hbytes]
  exact if_neg (by rw [indexOf_of_not_mem hcolon]; decide)

theorem getHost_with_port (h : t.Valid) (hcolon : COLON ∉ t.host) {p : List UInt8}
    (hport : t.port = some p) : DisassembleHost.getHost t.authorityBytes = (t.host, p) := by
  have hbytes : t.authorityBytes = t.host ++ COLON :: p := by
    rw [Target.authorityBytes, hport]
    rfl
  have hpos : (t.host.length : ℤ) > 0 := by
    have hlength := List.length_pos_of_ne_nil h.isHost.nonempty
    omega
  unfold DisassembleHost.getHost
  rw [hbytes]
  dsimp only
  rw [indexOf_append hcolon, if_pos hpos, Int.toNat_natCast, List.take_left,
    List.append_cons, List.drop_left' (by simp)]

theorem isContainDigit_digits {p : List UInt8} (h : IsDigits p) : isContainDigit p = true := by
  obtain ⟨d, p, rfl⟩ := List.exists_cons_of_ne_nil h.1
  obtain ⟨hlow, hhigh⟩ := h.2 d List.mem_cons_self
  refine List.any_eq_true.mpr ⟨d.toUInt16, List.mem_cons_self, ?_⟩
  rw [Str.isDigit, Bool.and_eq_true, decide_eq_true_eq, decide_eq_true_eq]
  rw [UInt8.le_iff_toNat_le] at hlow hhigh
  rw [UInt16.le_iff_toNat_le, UInt16.le_iff_toNat_le, UInt8.toNat_toUInt16]
  exact ⟨hlow, hhigh⟩

/-- A port with a path behind it is no number. -/
theorem parseInt_path {p path : List UInt8} (hp : IsDigits p) (hpath : ∀ b ∈ path, IsVisible b)
    (hslash : path.head? = some SLASH) (z : ℤ) : Str.parseInt (chars (p ++ path)) ≠ .ok z := by
  intro hparse
  have hfield : ∀ b ∈ p ++ path, IsFieldByte b ∧ b ≠ 0x20 ∧ b ≠ 0x09 := by
    intro b hb
    rcases List.mem_append.mp hb with hb | hb
    · exact hp.fieldByte b hb
    · obtain ⟨hlow, hhigh⟩ := hpath b hb
      refine ⟨.inr ⟨UInt8.le_trans (by decide) hlow, ?_⟩, ?_, ?_⟩
      all_goals
        rintro rfl
        revert hlow hhigh
        decide
  obtain ⟨hvalue, -⟩ := (parseInt_value (fun b hb => (hfield b hb).1) (fun b hb =>
    (hfield b (hb.elim List.mem_of_head? List.mem_of_getLast?)).2) z).mp hparse
  have hsign : Str.takeSign (chars (p ++ path)) = (false, chars (p ++ path)) := by
    obtain ⟨d, p, rfl⟩ := List.exists_cons_of_ne_nil hp.1
    have hd := hp.2 d List.mem_cons_self
    unfold Str.takeSign
    split
    · rename_i more hmore
      obtain rfl : d = 0x2D := UInt8.toUInt16_inj.mp (List.cons.inj hmore).1
      exact absurd hd.1 (by decide)
    · rename_i more hmore
      obtain rfl : d = 0x2B := UInt8.toUInt16_inj.mp (List.cons.inj hmore).1
      exact absurd hd.1 (by decide)
    · rfl
  have hmem : SLASH.toUInt16 ∈ chars (p ++ path) :=
    List.mem_map_of_mem (List.mem_append_right _ (List.mem_of_head? hslash))
  unfold number at hvalue
  rw [hsign] at hvalue
  dsimp only at hvalue
  have hdigits : chars (p ++ path) ≠ [] ∧ (chars (p ++ path)).all Str.isDigit = true := by
    by_contra hnot
    rw [if_neg hnot] at hvalue
    cases hvalue
  exact absurd (List.all_eq_true.mp hdigits.2 _ hmem) (by decide)

theorem readTarget_port (h : t.Valid) (hcolon : COLON ∉ t.host) {p : List UInt8}
    (hport : t.port = some p) (hpath : t.path = []) (hfits : Str.decimal (chars p) < 2 ^ 31)
    (r : StartLineReadResult) :
    ∃ r', TryReadStartLine.readTarget culture t.bytes r = .ok r' ∧
      r'.portOrDefault = .ok (Str.decimal (chars p) : ℤ) := by
  have hline : t.connectionLine = t.host ++ COLON :: p := by
    rw [connectionLine_eq, hpath, List.append_nil, Target.authorityBytes, hport]
    rfl
  have hindex : indexOf COLON t.connectionLine = t.host.length := by
    rw [hline]
    exact indexOf_append hcolon p
  have hpos : indexOf COLON t.connectionLine > 0 := by
    rw [hline]
    exact indexOf_colon_pos h.isHost (by simp)
  have hdrop : t.connectionLine.drop (t.host.length + 1) = p := by
    rw [hline, List.append_cons, List.drop_left' (by simp)]
  rw [readTarget_bytes culture h, if_pos hpos, hindex, Int.toNat_natCast, hdrop,
    parseInt_digits (h.digits p hport) hfits]
  exact ⟨_, rfl, rfl⟩

theorem portOrDefault_port {p : List UInt8} (hport : t.port = some p) :
    t.portOrDefault = Str.decimal (chars p) := by
  cases t with
  | authority host port =>
    cases hport
    rfl
  | absolute scheme host port path =>
    obtain rfl : port = some p := hport
    rfl

end Authority

/-- The origin of a request whose `Host` field is that of its target is found exactly if a port is
written, as an `int` and without a path behind it, and the host is no address with colons. -/
theorem findOrigin_iff (culture : CharCase) (r : HostedRequest) :
    HttpProxyProcessor.findOrigin culture r.bytes =
        .ok (some ⟨r.target.host, r.target.portOrDefault⟩) ↔
      r.version = ConstantsForHttp.memVersion11 ∧ COLON ∉ r.target.host ∧ r.target.path = [] ∧
        ∃ p, r.target.port = some p ∧ Str.decimal (chars p) < 2 ^ 31 := by
  obtain ⟨mem, hfound, hmem⟩ := r.tryFindHostFeild_authority culture
  have hvalid := r.target_valid
  constructor
  · intro h
    obtain ⟨⟨isRead, startLine⟩, hread, h⟩ := do_ok_iff.mp h
    cases isRead with
    | false => cases h
    | true =>
      obtain ⟨line, hline, hversion, -⟩ := (tryReadStartLine_ok_iff culture _).mp hread
      obtain ⟨_, -, h⟩ := do_ok_iff.mp h
      rw [do_of_ok hfound] at h
      dsimp only at h
      obtain ⟨port, hport, h⟩ := do_ok_iff.mp h
      obtain ⟨hhost, rfl⟩ := Origin.mk.inj (Option.some.inj (Except.ok.inj h))
      rw [hmem, disassembleHost_authority culture hvalid] at hhost hport
      dsimp only at hhost hport
      have hcolon : COLON ∉ r.target.host := fun hin => getHost_colon hvalid hin hhost
      cases hp : r.target.port with
      | none =>
        rw [getHost_no_port hcolon hp] at hhost
        exact absurd hhost.symm hvalid.isHost.nonempty
      | some p =>
        rw [getHost_with_port hvalid hcolon hp] at hport
        have hdigits := hvalid.digits p hp
        have hparse : Str.parseInt (chars p) = .ok r.target.portOrDefault := by
          have hdigit : isContainDigit p = true := isContainDigit_digits hdigits
          rwa [Url.portOr, if_pos hdigit] at hport
        refine ⟨hversion, hcolon, ?_, p, rfl, decimal_of_parseInt hdigits hparse⟩
        -- a path would stand in the port of the start line
        have hauthority : r.target.authorityBytes = r.target.host ++ COLON :: p := by
          rw [Target.authorityBytes, hp]
          rfl
        have hmemColon : COLON ∈ r.target.connectionLine := by
          rw [connectionLine_eq, hauthority]
          simp
        obtain ⟨-, z, hz⟩ := readTarget_colon culture hvalid hline hmemColon
        rw [connectionLine_eq, hauthority, List.append_assoc, List.idxOf_append_of_notMem hcolon,
          List.cons_append, List.idxOf_cons_self, Nat.add_zero, List.append_cons,
          List.drop_left' (by simp)] at hz
        rcases hvalid.path.2 with hnil | hslash
        · exact hnil
        · exact absurd hz (parseInt_path hdigits hvalid.path.1 hslash z)
  · rintro ⟨hversion, hcolon, hpath, p, hp, hfits⟩
    obtain ⟨line, hline, hdefault⟩ := readTarget_port culture hvalid hcolon hp hpath hfits
      { flags := TryReadStartLine.readMethod r.method, step := 1 }
    have hread := (tryReadStartLine_ok_iff culture r.toRequestLine).mpr ⟨line, hline, hversion, rfl⟩
    have hport : Str.parseInt (chars p) = .ok (Str.decimal (chars p) : ℤ) :=
      parseInt_digits (hvalid.digits p hp) hfits
    have hurl : (disassembleHost culture (mem.bytes r.bytes)).host = r.target.host ∧
        (disassembleHost culture (mem.bytes r.bytes)).portOr (Str.decimal (chars p) : ℤ) =
          .ok (Str.decimal (chars p) : ℤ) := by
      rw [hmem, disassembleHost_authority culture hvalid, getHost_with_port hvalid hcolon hp]
      refine ⟨rfl, ?_⟩
      rw [Url.portOr, if_pos (isContainDigit_digits (hvalid.digits p hp))]
      exact hport
    have hdefault : ({ line.nextStep with httpVersion := .version11 } :
        StartLineReadResult).portOrDefault = .ok (Str.decimal (chars p) : ℤ) := hdefault
    unfold HttpProxyProcessor.findOrigin
    rw [do_of_ok hread]
    dsimp only
    rw [if_pos rfl, do_of_ok hdefault, do_of_ok hfound]
    dsimp only
    rw [do_of_ok hurl.2, hurl.1, portOrDefault_port hp]

/-- A target without a port and without a colon is read, and the port is that of its scheme. -/
theorem readTarget_no_port (culture : CharCase) {t : Target} (h : t.Valid) (hport : t.port = none)
    (hcolon : COLON ∉ t.connectionLine) (method : List UInt8) :
    ∃ r, TryReadStartLine.readTarget culture t.bytes
        { flags := TryReadStartLine.readMethod method, step := 1 } = .ok r ∧
      r.portOrDefault = .ok t.portOrDefault := by
  have hindex : ¬ indexOf COLON t.connectionLine > 0 := by
    rw [indexOf_of_not_mem hcolon]
    decide
  rw [readTarget_bytes culture h, if_neg hindex]
  cases t with
  | authority host port => cases hport
  | absolute s host port path =>
    obtain rfl : port = none := hport
    obtain ⟨hflag, hhttps⟩ := readMethod_scheme method
    refine ⟨_, rfl, ?_⟩
    cases hs : s.scheme with
    | http =>
      simp [StartLineReadResult.portOrDefault, Target.schemeFlags, Target.scheme, Scheme.present,
        Target.portOrDefault, hflag, hhttps, hs, Scheme.defaultPort]
    | https =>
      simp [StartLineReadResult.portOrDefault, Target.schemeFlags, Target.scheme, Scheme.present,
        Target.portOrDefault, hflag, hs, Scheme.defaultPort]

/-- Without a port the host of the field is taken for the port: the host that is looked up is
empty. -/
theorem findOrigin_no_port (culture : CharCase) (r : HostedRequest)
    (hversion : r.version = ConstantsForHttp.memVersion11) (hport : r.target.port = none)
    (hcolon : COLON ∉ r.target.connectionLine) :
    HttpProxyProcessor.findOrigin culture r.bytes =
      if isContainDigit r.target.host then
        (Str.parseInt (chars r.target.host)).map fun port => some ⟨[], port⟩
      else .ok (some ⟨[], r.target.portOrDefault⟩) := by
  obtain ⟨mem, hfound, hmem⟩ := r.tryFindHostFeild_authority culture
  obtain ⟨line, hline, hdefault⟩ :=
    readTarget_no_port culture r.target_valid hport hcolon r.method
  have hread := (tryReadStartLine_ok_iff culture r.toRequestLine).mpr ⟨line, hline, hversion, rfl⟩
  have hdefault : ({ line.nextStep with httpVersion := .version11 } :
      StartLineReadResult).portOrDefault = .ok r.target.portOrDefault := hdefault
  have hhost : COLON ∉ r.target.host := by
    intro hin
    rw [connectionLine_eq, Target.authorityBytes] at hcolon
    exact hcolon (List.mem_append_left _ (List.mem_append_left _ hin))
  unfold HttpProxyProcessor.findOrigin
  rw [do_of_ok hread]
  dsimp only
  rw [if_pos rfl, do_of_ok hdefault, do_of_ok hfound]
  dsimp only
  rw [hmem, disassembleHost_authority culture r.target_valid, getHost_no_port hhost hport]
  dsimp only [Url.portOr]
  split_ifs with hdigit
  · rw [Url.getPort]
    cases Str.parseInt (chars r.target.host) with
    | error fault => rfl
    | ok port => rfl
  · rfl

theorem http_spelled : (chars (asciiBytes "http://")).map Str.lower = Scheme.http.array := rfl

/-- `GET http://a/ HTTP/1.1` with `Host: a`. -/
def plainRequest : HostedRequest where
  method := asciiBytes "GET"
  target := .absolute ⟨.http, asciiBytes "http://", http_spelled⟩ [0x61] none [SLASH]
  version := ConstantsForHttp.memVersion11
  following := asciiBytes "Host: a\r\n\r\n"
  method_token := lineWithPort.method_token
  target_valid := by
    refine ⟨⟨by decide, by decide, by decide, fun h => absurd h (by decide)⟩, ?_, by decide,
      .inr rfl⟩
    intro p hp
    cases hp
  connect h := absurd h (Option.some_ne_none _)
  version_digits := ⟨0x31, 0x31, ⟨by decide, by decide⟩, by decide⟩
  lines := []
  name := asciiBytes "Host: "
  rest := CRLF
  method_known := List.mem_cons_of_mem _ List.mem_cons_self
  lines_other line h := absurd h List.not_mem_nil
  name_spelled := by decide
  following_eq := by decide

theorem findOrigin_no_port_plain :
    HttpProxyProcessor.findOrigin .invariantGlobalization plainRequest.bytes =
      .ok (some ⟨[], 80⟩) :=
  findOrigin_no_port .invariantGlobalization plainRequest rfl rfl (by decide)

end DecodingProxy.Http
