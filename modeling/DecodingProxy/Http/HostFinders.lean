import DecodingProxy.Http.HostDisassembly
import DecodingProxy.Lib.Runs
import DecodingProxy.Lib.Splits

/-!
# `TryFindHostFeild` and `FindHostFeild`

Both walk over the lines of a message. The first looks at each line, and the second one at the start
of the whole message each time, so that they agree only where the field stands in the first line.
-/

namespace DecodingProxy.Http
open DecodingProxy.Runs DecodingProxy.Runtime DecodingProxy.Splits

/-- Where a `ReadOnlyMemory<byte>` lies in the one it is cut from. -/
structure Mem where
  start : ℕ
  length : ℕ
  deriving DecidableEq, Repr

namespace Mem

def bytes (source : List UInt8) (mem : Mem) : List UInt8 := (source.drop mem.start).take mem.length

/-- `source.Slice(start, length)`. -/
def slice (source : List UInt8) (start : ℕ) (length : ℤ) : Except Fault Mem :=
  if length < 0 ∨ source.length < start + length then .error (.raised .argumentOutOfRange)
  else .ok ⟨start, length.toNat⟩

/-- `mem.Slice(start)`. -/
def sliceFrom (mem : Mem) (start : ℕ) : Except Fault Mem :=
  if mem.length < start then .error (.raised .argumentOutOfRange)
  else .ok ⟨mem.start + start, mem.length - start⟩

end Mem

/-- The field `end` is `last`. -/
structure EnumeratorForSpanLine where
  source : List UInt8
  current : Mem
  counter : ℤ
  offset : ℕ
  start : ℕ
  last : ℤ

namespace EnumeratorForSpanLine

def new (source : List UInt8) : EnumeratorForSpanLine where
  source := source
  current := ⟨0, 0⟩
  counter := -1
  offset := 0
  start := 0
  last := source.length - 1

/-- The loop of `MoveNext` from `offset` on, while `turns` offsets are left. -/
def moveNextFrom (e : EnumeratorForSpanLine) :
    ℕ → ℕ → Except Fault (Bool × EnumeratorForSpanLine)
  | 0, offset => .ok (false, { e with offset })
  | turns + 1, offset =>
    if e.source[offset]? = some CR ∧ e.source[offset + 1]? = some LF then do
      let current ← Mem.slice e.source e.start (offset - e.start)
      .ok (true, { e with
        current, start := offset + 2, counter := e.counter + 1, offset := offset + 1 })
    else moveNextFrom e turns (offset + 1)

def moveNext (e : EnumeratorForSpanLine) : Except Fault (Bool × EnumeratorForSpanLine) :=
  moveNextFrom e (e.last - e.offset).toNat e.offset

variable {e e' : EnumeratorForSpanLine}

theorem moveNextFrom_offset {turns offset : ℕ}
    (h : moveNextFrom e turns offset = .ok (true, e')) :
    e'.last = e.last ∧ offset < e'.offset ∧ e'.offset ≤ offset + turns := by
  induction turns generalizing offset with
  | zero => cases h
  | succ turns ih =>
    rw [moveNextFrom] at h
    split_ifs at h with hend
    · obtain ⟨current, -, h⟩ := do_ok_iff.mp h
      cases h
      dsimp only
      omega
    · obtain ⟨hlast, hlt, hle⟩ := ih h
      omega

theorem moveNext_lt (h : e.moveNext = .ok (true, e')) :
    (e'.last - e'.offset).toNat < (e.last - e.offset).toNat := by
  obtain ⟨hlast, hlt, hle⟩ := moveNextFrom_offset h
  omega

end EnumeratorForSpanLine

def charsHost : Str := ascii "HOST: "

/-- The `while` loop of both finders; `isHost` is what they test. `none` is `default`. -/
def findHost (isHost : Mem → Bool) (enumerator : EnumeratorForSpanLine) :
    Except Fault (Option Mem) :=
  match _h : enumerator.moveNext with
  | .error fault => .error fault
  | .ok (false, _) => .ok none
  | .ok (true, e) =>
    if isHost e.current then do
      let result ← e.current.sliceFrom charsHost.length
      .ok (some result)
    else findHost isHost e
termination_by (enumerator.last - enumerator.offset).toNat
decreasing_by exact EnumeratorForSpanLine.moveNext_lt _h

def tryFindHostFeild (culture : CharCase) (memWithMsg : List UInt8) : Except Fault (Option Mem) :=
  findHost (fun mem => isStartWithCI culture (mem.bytes memWithMsg) charsHost) (.new memWithMsg)

/-- What is tested is the message and not the line. -/
def findHostFeild (culture : CharCase) (memWithMsg : List UInt8) : Except Fault (Option Mem) :=
  findHost (fun _ => isStartWithCI culture memWithMsg charsHost) (.new memWithMsg)

/-! ### The lines of a message -/

/-- Where the pieces of a text lie that has line ends between them. -/
def places : ℕ → List (List UInt8) → List Mem
  | _, [] => []
  | start, piece :: pieces => ⟨start, piece.length⟩ :: places (start + piece.length + 2) pieces

/-- The lines are what stands between the line ends; what is behind the last one is a line too. -/
def IsLineOf (text : List UInt8) (line : Mem) : Prop :=
  ∃ pieces, SplitsInto CRLF text pieces ∧ line ∈ places 0 pieces

/-- The name in front of the colon is `Host`, in any letter case. -/
def HasHostName (text : List UInt8) (line : Mem) : Prop :=
  ascii "host:" <+: (chars (line.bytes text)).map Str.lower

/-- Both find a field if and only if a line has the name, and the same line, from which they cut the
name, the colon and the space. -/
def HostFindersAgree (culture : CharCase) (text : List UInt8) : Prop :=
  ∃ result, tryFindHostFeild culture text = .ok result ∧ findHostFeild culture text = .ok result ∧
    (result.isSome ↔ ∃ line, IsLineOf text line ∧ HasHostName text line) ∧
    ∀ value ∈ result, ∃ line, IsLineOf text line ∧ HasHostName text line ∧
      line.sliceFrom charsHost.length = .ok value

/-! ### `MoveNext` -/

theorem crlf_prefix_drop_iff {text : List UInt8} {i : ℕ} :
    CRLF <+: text.drop i ↔ text[i]? = some CR ∧ text[i + 1]? = some LF := by
  rw [List.prefix_iff_getElem?]
  constructor
  · intro h
    have hcr := h 0 (by decide)
    have hlf := h 1 (by decide)
    rw [List.getElem?_drop] at hcr hlf
    exact ⟨hcr, hlf⟩
  · rintro ⟨hcr, hlf⟩ j hj
    rw [List.getElem?_drop]
    obtain rfl | rfl : j = 0 ∨ j = 1 := by
      have hlength : CRLF.length = 2 := rfl
      omega
    · exact hcr
    · exact hlf

namespace EnumeratorForSpanLine
variable {e : EnumeratorForSpanLine} {line rest : List UInt8} {turns : ℕ}

/-- Between two calls the offset is where the next line starts, or at the line feed before that. -/
structure Ready (e : EnumeratorForSpanLine) : Prop where
  last_eq : e.last = e.source.length - 1
  offset : e.offset = e.start ∨ e.offset + 1 = e.start ∧ e.source[e.offset]? = some LF

/-- What the enumerator is behind a line of `length` bytes. -/
def behind (e : EnumeratorForSpanLine) (length : ℕ) : EnumeratorForSpanLine :=
  { e with
    current := ⟨e.start, length⟩, start := e.start + length + 2, counter := e.counter + 1
    offset := e.start + length + 1 }

theorem ready_new (source : List UInt8) : (new source).Ready := ⟨rfl, .inl rfl⟩

theorem Ready.behind (h : e.Ready) (hline : FirstAt CRLF (e.source.drop e.start) line rest) :
    (e.behind line.length).Ready := by
  refine ⟨h.last_eq, .inr ⟨rfl, ?_⟩⟩
  have hstarts := hline.prefix_drop
  rw [List.drop_drop] at hstarts
  exact (crlf_prefix_drop_iff.mp hstarts).2

theorem moveNextFrom_line (hline : FirstAt CRLF (e.source.drop e.start) line rest) {n : ℕ}
    (hle : n ≤ line.length) (hturns : line.length < n + turns) :
    moveNextFrom e turns (e.start + n) = .ok (true, e.behind line.length) := by
  induction turns generalizing n with
  | zero => omega
  | succ turns ih =>
    have htest : CRLF <+: e.source.drop (e.start + n) ↔ n = line.length := by
      rw [← List.drop_drop]
      constructor
      · intro hstarts
        exact Nat.le_antisymm hle (hline.le hstarts)
      · rintro rfl
        exact hline.prefix_drop
    rw [moveNextFrom]
    by_cases hn : n = line.length
    · have hlength := hline.length_eq
      have hcrlf : CRLF.length = 2 := rfl
      rw [List.length_drop, hcrlf] at hlength
      have hslice : Mem.slice e.source e.start ((e.start + n : ℕ) - e.start) =
          .ok ⟨e.start, line.length⟩ := by
        rw [Mem.slice, if_neg (by omega)]
        congr 2
        omega
      rw [if_pos (crlf_prefix_drop_iff.mp (htest.mpr hn)), do_of_ok hslice, hn]
      rfl
    · rw [if_neg fun hend => hn (htest.mp (crlf_prefix_drop_iff.mpr hend))]
      exact ih (n := n + 1) (by omega) (by omega)

theorem moveNextFrom_over {offset : ℕ}
    (h : ∀ j, offset ≤ j → ¬ CRLF <+: e.source.drop j) :
    ∃ e', moveNextFrom e turns offset = .ok (false, e') := by
  induction turns generalizing offset with
  | zero => exact ⟨_, rfl⟩
  | succ turns ih =>
    rw [moveNextFrom, if_neg fun hend => h offset le_rfl (crlf_prefix_drop_iff.mpr hend)]
    exact ih fun j hj => h j (by omega)

theorem Ready.moveNext_line (h : e.Ready)
    (hline : FirstAt CRLF (e.source.drop e.start) line rest) :
    e.moveNext = .ok (true, e.behind line.length) := by
  have hlength := hline.length_eq
  have hcrlf : CRLF.length = 2 := rfl
  have hlast := h.last_eq
  rw [List.length_drop, hcrlf] at hlength
  unfold moveNext
  rcases h.offset with heq | ⟨heq, hlf⟩
  · rw [heq]
    exact moveNextFrom_line (n := 0) hline (Nat.zero_le _) (by omega)
  · obtain ⟨turns, hturns⟩ : ∃ turns, (e.last - e.offset).toNat = turns + 1 :=
      ⟨(e.last - e.offset).toNat - 1, by omega⟩
    have hcr : ¬ (e.source[e.offset]? = some CR ∧ e.source[e.offset + 1]? = some LF) := by
      rw [hlf]
      exact fun hend => absurd hend.1 (by decide)
    rw [hturns, moveNextFrom, if_neg hcr, heq]
    exact moveNextFrom_line (n := 0) hline (Nat.zero_le _) (by omega)

theorem Ready.moveNext_over (h : e.Ready) (hnone : ¬ CRLF <:+: e.source.drop e.start) :
    ∃ e', e.moveNext = .ok (false, e') := by
  have hbehind : ∀ j, e.start ≤ j → ¬ CRLF <+: e.source.drop j := by
    intro j hj hstarts
    rw [← Nat.add_sub_cancel' hj, ← List.drop_drop] at hstarts
    exact hnone (hstarts.isInfix.trans (List.drop_suffix _ _).isInfix)
  apply moveNextFrom_over
  intro j hj hstarts
  rcases h.offset with heq | ⟨heq, hlf⟩
  · exact hbehind j (heq ▸ hj) hstarts
  · rcases Nat.lt_or_ge j e.start with hlt | hge
    · have hj' : j = e.offset := by omega
      have hcr := (crlf_prefix_drop_iff.mp hstarts).1
      rw [hj', hlf] at hcr
      exact absurd hcr (by decide)
    · exact hbehind j hge hstarts

end EnumeratorForSpanLine

/-! ### The walk over the lines -/

section Walk
variable {isHost : Mem → Bool} {e : EnumeratorForSpanLine} {text piece rest : List UInt8}
  {pieces : List (List UInt8)}

/-- What is returned for the line that is found. -/
def cutHost : Option Mem → Except Fault (Option Mem)
  | none => .ok none
  | some line => do
    let result ← line.sliceFrom charsHost.length
    .ok (some result)

theorem findHost_line (hready : e.Ready) (hline : FirstAt CRLF (e.source.drop e.start) piece rest) :
    findHost isHost e =
      if isHost ⟨e.start, piece.length⟩ then cutHost (some ⟨e.start, piece.length⟩)
      else findHost isHost (e.behind piece.length) := by
  rw [findHost]
  split
  · next heq => rw [hready.moveNext_line hline] at heq; cases heq
  · next heq => rw [hready.moveNext_line hline] at heq; cases heq
  · next heq =>
    rw [hready.moveNext_line hline] at heq
    cases heq
    rfl

theorem findHost_over (hready : e.Ready) (hnone : ¬ CRLF <:+: e.source.drop e.start) :
    findHost isHost e = .ok none := by
  obtain ⟨e', he'⟩ := hready.moveNext_over hnone
  rw [findHost]
  split
  · next heq => rw [he'] at heq; cases heq
  · rfl
  · next heq => rw [he'] at heq; cases heq

theorem dropLast_places (start : ℕ) (piece : List UInt8) (h : pieces ≠ []) :
    (places start (piece :: pieces)).dropLast =
      ⟨start, piece.length⟩ :: (places (start + piece.length + 2) pieces).dropLast := by
  obtain ⟨second, pieces, rfl⟩ := List.exists_cons_of_ne_nil h
  rfl

/-- The walk ends with the first line that has a line end and is taken for the field. -/
theorem findHost_eq (h : SplitsInto CRLF text pieces) (hready : e.Ready)
    (htext : e.source.drop e.start = text) :
    findHost isHost e = cutHost ((places e.start pieces).dropLast.find? isHost) := by
  induction h generalizing e with
  | last hnone =>
    rw [← htext] at hnone
    exact findHost_over hready hnone
  | @cons text piece rest pieces hline hrest ih =>
    have hnext : (e.behind piece.length).source.drop (e.behind piece.length).start = rest := by
      have hdrop := hline.starts
      rw [← htext, List.drop_drop] at hdrop
      calc e.source.drop (e.start + piece.length + 2)
        _ = (e.source.drop (e.start + piece.length)).drop 2 := List.drop_drop.symm
        _ = (CRLF ++ rest).drop 2 := by rw [hdrop]
        _ = rest := rfl
    subst htext
    rw [findHost_line hready hline, ih (hready.behind hline) hnext,
      dropLast_places e.start piece hrest.ne_nil, List.find?_cons]
    cases isHost ⟨e.start, piece.length⟩ <;> rfl

end Walk

/-! ### What the finders return -/

section Finders
variable {culture : CharCase} {text piece rest : List UInt8} {pieces : List (List UInt8)}

theorem tryFindHostFeild_eq (culture : CharCase) (h : SplitsInto CRLF text pieces) :
    tryFindHostFeild culture text = cutHost ((places 0 pieces).dropLast.find? fun mem =>
      isStartWithCI culture (mem.bytes text) charsHost) :=
  findHost_eq h (EnumeratorForSpanLine.ready_new text) List.drop_zero

theorem findHostFeild_eq (culture : CharCase) (h : SplitsInto CRLF text pieces) :
    findHostFeild culture text = cutHost ((places 0 pieces).dropLast.find? fun _ =>
      isStartWithCI culture text charsHost) :=
  findHost_eq h (EnumeratorForSpanLine.ready_new text) List.drop_zero

theorem isStartWithCI_charsHost :
    isStartWithCI culture text charsHost = true ↔
      ascii "host: " <+: (chars text).map Str.lower := by
  have hlower : charsHost.map Str.lower = ascii "host: " := by decide
  rw [isStartWithCI_iff (List.all_iff_forall_prop.mp (by decide)), hlower]

theorem hasHostName_of_start {line : Mem}
    (h : isStartWithCI culture (line.bytes text) charsHost = true) : HasHostName text line := by
  have hname : ascii "host:" <+: ascii "host: " := by decide
  exact hname.trans (isStartWithCI_charsHost.mp h)

/-- No line end lies inside of what is looked for. -/
theorem start_of_line (hline : FirstAt CRLF text piece rest)
    (h : ascii "host: " <+: (chars text).map Str.lower) :
    ascii "host: " <+: (chars piece).map Str.lower := by
  have hcr : Str.lower CR.toUInt16 ∉ ascii "host: " := by decide
  have htext : (chars text).map Str.lower = (chars piece).map Str.lower ++
      Str.lower CR.toUInt16 :: (chars (LF :: rest)).map Str.lower := by
    rw [hline.eq, CRLF, List.append_assoc]
    simp only [chars, List.map_append, List.map_cons, List.cons_append, List.nil_append]
  rw [htext] at h
  by_contra hnot
  have hlong : ((chars piece).map Str.lower ++ [Str.lower CR.toUInt16]) <+: ascii "host: " := by
    apply List.prefix_of_prefix_length_le _ h
    · rw [List.length_append, List.length_singleton]
      by_contra hshort
      apply hnot
      exact List.prefix_of_prefix_length_le h (List.prefix_append _ _) (by omega)
    · exact ⟨_, by rw [List.append_assoc]; rfl⟩
  exact hcr (hlong.subset (List.mem_append_right _ List.mem_cons_self))

theorem exists_splits (text : List UInt8) : ∃ pieces, SplitsInto CRLF text pieces :=
  SplitsInto.exists (by decide) text

theorem agree_of_front (hend : CRLF <:+: text) (h : ascii "host: " <+: (chars text).map Str.lower) :
    HostFindersAgree culture text := by
  obtain ⟨pieces, hsplit⟩ := exists_splits text
  cases hsplit with
  | last hnone => exact absurd hend hnone
  | @cons _ piece rest pieces hline hrest =>
    have hsplit := SplitsInto.cons hline hrest
    have hfirst : Mem.bytes text ⟨0, piece.length⟩ = piece := hline.take_eq
    have hpiece : isStartWithCI culture (Mem.bytes text ⟨0, piece.length⟩) charsHost = true := by
      rw [hfirst]
      exact isStartWithCI_charsHost.mpr (start_of_line hline h)
    have htext : isStartWithCI culture text charsHost = true := isStartWithCI_charsHost.mpr h
    have hcut : Mem.sliceFrom ⟨0, piece.length⟩ charsHost.length = .ok ⟨6, piece.length - 6⟩ := by
      have hle := (start_of_line hline h).length_le
      simp only [chars, List.length_map] at hle
      exact if_neg (Nat.not_lt.mpr hle)
    have hresult : cutHost (some ⟨0, piece.length⟩) = .ok (some ⟨6, piece.length - 6⟩) := by
      rw [cutHost, do_of_ok hcut]
    have hname := hasHostName_of_start hpiece
    have hmem : IsLineOf text ⟨0, piece.length⟩ := ⟨_, hsplit, List.mem_cons_self⟩
    refine ⟨some ⟨6, piece.length - 6⟩, ?_, ?_, iff_of_true rfl ⟨_, hmem, hname⟩, ?_⟩
    · rw [tryFindHostFeild_eq culture hsplit, dropLast_places 0 piece hrest.ne_nil,
        List.find?_cons, hpiece, hresult]
    · rw [findHostFeild_eq culture hsplit, dropLast_places 0 piece hrest.ne_nil,
        List.find?_cons, htext, hresult]
    · intro value hvalue
      rw [← Option.mem_some_iff.mp hvalue]
      exact ⟨_, hmem, hname, hcut⟩

theorem findHostFeild_none
    (h : ¬ (CRLF <:+: text ∧ ascii "host: " <+: (chars text).map Str.lower)) :
    findHostFeild culture text = .ok none := by
  obtain ⟨pieces, hsplit⟩ := exists_splits text
  rw [findHostFeild_eq culture hsplit]
  by_cases hend : CRLF <:+: text
  · have hnot : isStartWithCI culture text charsHost = false := by
      rw [← Bool.not_eq_true, isStartWithCI_charsHost]
      exact fun hstart => h ⟨hend, hstart⟩
    rw [hnot, List.find?_eq_none.mpr (by simp)]
    rfl
  · cases hsplit with
    | last _ => rfl
    | cons hline _ => exact absurd hline.infix hend

theorem tryFindHostFeild_none (h : ∀ line, IsLineOf text line → ¬ HasHostName text line) :
    tryFindHostFeild culture text = .ok none := by
  obtain ⟨pieces, hsplit⟩ := exists_splits text
  have hnone : ((places 0 pieces).dropLast.find? fun mem =>
      isStartWithCI culture (mem.bytes text) charsHost) = none := by
    rw [List.find?_eq_none]
    intro line hline hstart
    exact h line ⟨pieces, hsplit, List.mem_of_mem_dropLast hline⟩ (hasHostName_of_start hstart)
  rw [tryFindHostFeild_eq culture hsplit, hnone]
  rfl

end Finders

/-- The finders agree where no line has the name, and else only where the field is the first line,
with a space behind the colon and a line end. -/
theorem hostFindersAgree_iff (culture : CharCase) (text : List UInt8) :
    HostFindersAgree culture text ↔
      (∀ line, IsLineOf text line → ¬ HasHostName text line) ∨
        CRLF <:+: text ∧ ascii "host: " <+: (chars text).map Str.lower := by
  by_cases hfront : CRLF <:+: text ∧ ascii "host: " <+: (chars text).map Str.lower
  · exact iff_of_true (agree_of_front hfront.1 hfront.2) (.inr hfront)
  · rw [or_iff_left hfront]
    constructor
    · rintro ⟨result, -, hfind, hsome, -⟩ line hline hname
      rw [findHostFeild_none hfront] at hfind
      cases hfind
      cases hsome.mpr ⟨line, hline, hname⟩
    · intro hno
      refine ⟨none, tryFindHostFeild_none hno, findHostFeild_none hfront, ?_, nofun⟩
      exact iff_of_false nofun fun ⟨line, hline, hname⟩ => hno line hline hname

def requestWithHost : List UInt8 := asciiBytes "GET / HTTP/1.1\r\nHost: a\r\n\r\n"

theorem requestWithHost_splits : SplitsInto CRLF requestWithHost
    [asciiBytes "GET / HTTP/1.1", asciiBytes "Host: a", [], []] := by
  have hlast : SplitsInto CRLF [] [[]] := .last (by decide)
  have hempty : SplitsInto CRLF CRLF [[], []] := .cons ⟨by decide, by decide⟩ hlast
  have hhost : SplitsInto CRLF (asciiBytes "Host: a\r\n\r\n") [asciiBytes "Host: a", [], []] :=
    .cons ⟨by decide, by decide⟩ hempty
  exact .cons ⟨by decide, by decide⟩ hhost

/-- Behind a start line one of them finds the field. -/
theorem hostFinders_disagree :
    tryFindHostFeild .invariantGlobalization requestWithHost = .ok (some ⟨22, 1⟩) ∧
      findHostFeild .invariantGlobalization requestWithHost = .ok none ∧
      ¬ HostFindersAgree .invariantGlobalization requestWithHost := by
  have htry : tryFindHostFeild .invariantGlobalization requestWithHost = .ok (some ⟨22, 1⟩) := by
    rw [tryFindHostFeild_eq _ requestWithHost_splits]
    decide
  have hfind : findHostFeild .invariantGlobalization requestWithHost = .ok none :=
    findHostFeild_none (by decide)
  refine ⟨htry, hfind, ?_⟩
  rintro ⟨result, htry', hfind', -⟩
  rw [htry] at htry'
  rw [hfind, ← htry'] at hfind'
  cases hfind'

end DecodingProxy.Http
