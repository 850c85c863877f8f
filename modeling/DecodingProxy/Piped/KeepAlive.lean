import DecodingProxy.Buffers.SpanAsString
import DecodingProxy.Piped.HttpBinaryMapped
import Mathlib.Data.List.TakeWhile

/-!
# `TryGetKeepAlive`

The loop over the pieces between the commas ends only when it has seen both parameters: a value
that lacks one of them is read for ever.
-/

namespace DecodingProxy.Piped
open DecodingProxy.Buffers DecodingProxy.Http DecodingProxy.Runs DecodingProxy.Runtime
open DecodingProxy.Piped.ConstantsForHttp

namespace ConstantsForHttp

def NAME_KEEP_ALIVE : List UInt8 := asciiBytes "Keep-Alive"

end ConstantsForHttp

/-- `ConstantsUtf8.COMMA`. -/
def COMMA : UInt8 := 0x2C

structure KeepAlive where
  timeout : ℤ := 0
  max : ℤ := 0
  isTimeout : Bool := false
  isMax : Bool := false
  deriving DecidableEq, Repr

namespace KeepAlive

/-- What one piece says. -/
def readSlice (culture : CharCase) (p : KeepAlive) (slice : List UInt8) :
    Except Fault KeepAlive := do
  let indexTimeout ← endOfSubstringCI culture slice (ascii "timeout=")
  if 0 < indexTimeout then
    let timeout ← Str.parseInt (chars (slice.drop (indexTimeout + 1).toNat))
    .ok { p with timeout, isTimeout := true }
  else
    let indexMax ← endOfSubstringCI culture slice (ascii "max=")
    if 0 < indexMax then
      let max ← Str.parseInt (chars (slice.drop (indexMax + 1).toNat))
      .ok { p with max, isMax := true }
    else .ok p

/-- The loop, for at most so many pieces. -/
def readSlices (culture : CharCase) (span : List UInt8) (s : Split) (p : KeepAlive) :
    ℕ → Except Halt KeepAlive
  | 0 => .error .diverges
  | fuel + 1 => do
    let start := s.offset
    let (isKeepIterate, s) := tryFindSplit COMMA span s
    let slice := (span.drop start).take s.length
    let p ← (readSlice culture p slice).mapError .threw
    if isKeepIterate ∨ ¬ (p.isTimeout ∧ p.isMax) then readSlices culture span s p fuel
    else .ok p

end KeepAlive

/-- Whether the parameters were found, and the parameters. -/
def tryGetKeepAlive (culture : CharCase) (spans : List (List UInt8)) (fuel : ℕ) :
    Except Halt (Bool × KeepAlive) :=
  match tryGetFieldValueCI NAME_KEEP_ALIVE spans with
  | some span => do
    let p ← KeepAlive.readSlices culture span {} {} fuel
    .ok (p.isTimeout && p.isMax, p)
  | none => .ok (false, {})

/-! ### What is written in the value -/

/-- The pieces between the commas. -/
def slices : List UInt8 → List (List UInt8)
  | [] => [[]]
  | b :: rest =>
    if b = COMMA then [] :: slices rest
    else
      match slices rest with
      | slice :: others => (b :: slice) :: others
      | [] => [[b]]

/-- The number of the parameter `name=N`, with optional white space around it. -/
def parameterOf (name : String) (slice : List UInt8) : Option ℕ :=
  let isOws := fun b : UInt8 => b = 0x20 || b = 0x09
  let parameter := ((slice.dropWhile isOws).reverse.dropWhile isOws).reverse
  let start := asciiBytes (name ++ "=")
  let digits := parameter.drop start.length
  if start.map lowerByte <+: parameter.map lowerByte ∧ IsDigits digits then
    some (Str.decimal (chars digits))
  else none

/-- The numbers written for the parameter. -/
def written (name : String) (value : List UInt8) : List ℕ :=
  (slices value).filterMap (parameterOf name)

/-- A number that is written, or nothing where none is. -/
def Reported (numbers : List ℕ) (z : ℤ) : Prop :=
  (numbers = [] ∧ z = 0) ∨ ∃ n ∈ numbers, z = n

/-- The call returns, true just if one of the parameters is written, and then with those that are
written. -/
def KeepAliveExact (culture : CharCase) (spans : List (List UInt8)) (value : List UInt8) : Prop :=
  ∃ fuel found p, tryGetKeepAlive culture spans fuel = .ok (found, p) ∧
    (found = true ↔ written "timeout" value ≠ [] ∨ written "max" value ≠ []) ∧
    (found = true → Reported (written "timeout" value) p.timeout ∧
      Reported (written "max" value) p.max)

/-- What is parsed as the number of `name=` where a piece contains that text. -/
def numberAfter (culture : CharCase) (name : Str) (slice : List UInt8) :
    Option (Except Fault ℤ) :=
  match endOfSubstringCI culture slice name with
  | .ok index =>
    if 0 < index then some (Str.parseInt (chars (slice.drop (index + 1).toNat))) else none
  | .error _ => none

/-- A piece that contains `timeout=` is not looked at for `max=`. -/
def maxAfter (culture : CharCase) (slice : List UInt8) : Option (Except Fault ℤ) :=
  if numberAfter culture (ascii "timeout=") slice = none then
    numberAfter culture (ascii "max=") slice
  else none

def timeoutsOf (culture : CharCase) (pieces : List (List UInt8)) : List (Except Fault ℤ) :=
  pieces.filterMap (numberAfter culture (ascii "timeout="))

def maxesOf (culture : CharCase) (pieces : List (List UInt8)) : List (Except Fault ℤ) :=
  pieces.filterMap (maxAfter culture)

/-- Both texts occur, all that is parsed behind them are `int`s, and the last ones are those that
are written. -/
structure BothRead (culture : CharCase) (value : List UInt8) : Prop where
  numbers : ∀ number ∈ timeoutsOf culture (slices value) ++ maxesOf culture (slices value),
    ∃ z, number = .ok z
  some_written : written "timeout" value ≠ [] ∨ written "max" value ≠ []
  timeout : ∃ z, (timeoutsOf culture (slices value)).getLast? = some (.ok z) ∧
    Reported (written "timeout" value) z
  max : ∃ z, (maxesOf culture (slices value)).getLast? = some (.ok z) ∧
    Reported (written "max" value) z

/-! ### The pieces -/

theorem slices_of_not_mem {r : List UInt8} (h : COMMA ∉ r) : slices r = [r] := by
  induction r with
  | nil => rfl
  | cons b r ih =>
    simp only [List.mem_cons, not_or] at h
    rw [slices, if_neg (Ne.symm h.1), ih h.2]

theorem slices_append {a r : List UInt8} (h : COMMA ∉ a) :
    slices (a ++ COMMA :: r) = a :: slices r := by
  induction a with
  | nil => simp [slices]
  | cons b a ih =>
    simp only [List.mem_cons, not_or] at h
    rw [List.cons_append, slices, if_neg (Ne.symm h.1), ih h.2]

section Split
variable {span a r : List UInt8} {s : Split}

theorem takeWhile_not_comma (h : COMMA ∉ a) :
    (a ++ COMMA :: r).takeWhile (· ≠ COMMA) = a := by
  have hall : ∀ b ∈ a, (decide (b ≠ COMMA)) = true := by
    intro b hb
    rw [decide_eq_true_iff]
    rintro rfl
    exact h hb
  rw [List.takeWhile_append_of_pos hall, List.takeWhile_cons_of_neg (by simp), List.append_nil]

theorem tryFindSplit_comma (h : COMMA ∉ a) (hdrop : span.drop s.offset = a ++ COMMA :: r) :
    tryFindSplit COMMA span s =
      (true, ⟨int32 (s.index + 1), s.offset + a.length + 1, a.length⟩) := by
  have hlength := congrArg List.length hdrop
  simp only [List.length_drop, List.length_append, List.length_cons] at hlength
  unfold tryFindSplit
  simp only [hdrop, takeWhile_not_comma h]
  rw [if_pos (by omega)]

theorem tryFindSplit_last (h : COMMA ∉ r) (hoffset : s.offset ≤ span.length)
    (hdrop : span.drop s.offset = r) :
    tryFindSplit COMMA span s = (false, ⟨int32 (s.index + 1), span.length, r.length⟩) := by
  have hlength := congrArg List.length hdrop
  rw [List.length_drop] at hlength
  have hall : r.takeWhile (· ≠ COMMA) = r := by
    simp only [List.takeWhile_eq_self_iff, decide_eq_true_eq]
    rintro b hb rfl
    exact h hb
  unfold tryFindSplit
  simp only [hdrop, hall]
  rw [if_neg (by omega), hlength]

end Split

/-! ### The loop -/

namespace KeepAlive

variable {culture : CharCase} {span a r : List UInt8} {s : Split} {p : KeepAlive} {fuel : ℕ}

theorem readSlices_comma (culture : CharCase) (h : COMMA ∉ a)
    (hdrop : span.drop s.offset = a ++ COMMA :: r) :
    ∃ t : Split, t.offset = s.offset + a.length + 1 ∧ span.drop t.offset = r ∧
      t.offset ≤ span.length ∧ ∀ fuel, readSlices culture span s p (fuel + 1) =
        (readSlice culture p a).mapError .threw >>= fun p => readSlices culture span t p fuel := by
  have hlength := congrArg List.length hdrop
  simp only [List.length_drop, List.length_append, List.length_cons] at hlength
  refine ⟨⟨int32 (s.index + 1), s.offset + a.length + 1, a.length⟩, rfl, ?_, by simp only; omega,
    fun fuel => ?_⟩
  · simp only
    rw [Nat.add_assoc, ← List.drop_drop, hdrop]
    simp
  · rw [readSlices, tryFindSplit_comma h hdrop]
    simp only [hdrop, List.take_left, true_or, if_true]

theorem readSlices_last (culture : CharCase) (h : COMMA ∉ r) (hoffset : s.offset ≤ span.length)
    (hdrop : span.drop s.offset = r) :
    ∃ t : Split, t.offset = span.length ∧ ∀ fuel, readSlices culture span s p (fuel + 1) =
      (readSlice culture p r).mapError .threw >>= fun p =>
        if p.isTimeout ∧ p.isMax then .ok p else readSlices culture span t p fuel := by
  refine ⟨⟨int32 (s.index + 1), span.length, r.length⟩, rfl, fun fuel => ?_⟩
  rw [readSlices, tryFindSplit_last h hoffset hdrop]
  simp only [hdrop, List.take_length, Bool.false_eq_true, false_or]
  congr 1
  funext p
  split_ifs <;> tauto

theorem readSlice_nil : readSlice culture p [] = .ok p := rfl

/-- Behind the last piece there is only the empty one, again and again. -/
theorem readSlices_end (hoffset : s.offset = span.length) (hp : ¬ (p.isTimeout ∧ p.isMax)) :
    readSlices culture span s p fuel = .error .diverges := by
  induction fuel generalizing s with
  | zero => rfl
  | succ fuel ih =>
    have hdrop : span.drop s.offset = [] := by
      rw [hoffset, List.drop_length]
    obtain ⟨t, ht, hstep⟩ := readSlices_last culture (p := p)
      (show COMMA ∉ ([] : List UInt8) by simp) hoffset.le hdrop
    rw [hstep, readSlice_nil]
    simp only [Except.mapError]
    rw [do_of_ok rfl, if_neg hp, ih ht]

/-- How the loop ends, from what reading all pieces gives. -/
def outcome : Except Fault KeepAlive → Except Halt KeepAlive
  | .error fault => .error (.threw fault)
  | .ok p => if p.isTimeout ∧ p.isMax then .ok p else .error .diverges

/-- One more turn: what is the outcome with enough fuel, and what has not ended with less. -/
theorem settles_of_turn {f g : ℕ → Except Halt KeepAlive} {x : Except Halt KeepAlive}
    (hzero : f 0 = .error .diverges) (hturn : ∀ fuel, f (fuel + 1) = g fuel)
    (hg : (∀ fuel, g fuel = .error .diverges ∨ g fuel = x) ∧ ∃ fuel, g fuel = x) :
    (∀ fuel, f fuel = .error .diverges ∨ f fuel = x) ∧ ∃ fuel, f fuel = x := by
  obtain ⟨hall, fuel, hfuel⟩ := hg
  constructor
  · intro fuel
    cases fuel with
    | zero => exact .inl hzero
    | succ fuel =>
      rw [hturn]
      exact hall fuel
  · exact ⟨fuel + 1, (hturn fuel).trans hfuel⟩

/-- With enough fuel the loop ends as the fold over the pieces says, and with less it has not
ended. -/
theorem readSlices_fold (culture : CharCase) (r : List UInt8) {s : Split} {p : KeepAlive}
    (hoffset : s.offset ≤ span.length) (hdrop : span.drop s.offset = r) :
    (∀ fuel, readSlices culture span s p fuel = .error .diverges ∨
        readSlices culture span s p fuel =
          outcome ((slices r).foldlM (readSlice culture) p)) ∧
      ∃ fuel, readSlices culture span s p fuel =
        outcome ((slices r).foldlM (readSlice culture) p) := by
  induction hn : r.length using Nat.strong_induction_on generalizing r s p with
  | _ n ih =>
    subst hn
    by_cases hcomma : COMMA ∈ r
    · obtain ⟨a, rest, rfl, ha⟩ := List.eq_append_cons_of_mem hcomma
      obtain ⟨t, -, htdrop, htoffset, hstep⟩ :=
        readSlices_comma culture (p := p) ha hdrop
      rw [slices_append ha, List.foldlM_cons]
      cases hread : readSlice culture p a with
      | error fault =>
        apply settles_of_turn rfl (g := fun _ => .error (.threw fault))
        · intro fuel
          rw [hstep, hread]
          rfl
        · exact ⟨fun _ => .inr rfl, 0, rfl⟩
      | ok q =>
        apply settles_of_turn rfl (g := readSlices culture span t q)
        · intro fuel
          rw [hstep, hread]
          rfl
        · exact ih rest.length (by simp; omega) rest htoffset htdrop rfl
    · obtain ⟨t, ht, hstep⟩ := readSlices_last culture (p := p) hcomma hoffset hdrop
      have hfold : (slices r).foldlM (readSlice culture) p = readSlice culture p r := by
        rw [slices_of_not_mem hcomma, List.foldlM_cons]
        cases readSlice culture p r <;> rfl
      rw [hfold]
      apply settles_of_turn rfl (g := fun _ => outcome (readSlice culture p r))
      · intro fuel
        rw [hstep]
        cases readSlice culture p r with
        | error fault => rfl
        | ok q =>
          simp only [Except.mapError, outcome]
          rw [do_of_ok rfl]
          split_ifs with hboth
          · rfl
          · exact readSlices_end ht hboth
      · exact ⟨fun _ => .inr rfl, 0, rfl⟩

/-! ### What the pieces give -/

theorem numberAfter_cases (culture : CharCase) {name : Str} (hne : name ≠ [])
    (slice : List UInt8) :
    ∃ index, endOfSubstringCI culture slice name = .ok index ∧
      numberAfter culture name slice =
        if 0 < index then some (Str.parseInt (chars (slice.drop (index + 1).toNat))) else none := by
  obtain ⟨index, hindex, -⟩ := endOfSubstringCI_ok culture slice hne
  exact ⟨index, hindex, by rw [numberAfter, hindex]⟩

theorem readSlice_eq (slice : List UInt8) :
    readSlice culture p slice =
      match numberAfter culture (ascii "timeout=") slice with
      | some number => number.map fun timeout => { p with timeout, isTimeout := true }
      | none =>
        match numberAfter culture (ascii "max=") slice with
        | some number => number.map fun max => { p with max, isMax := true }
        | none => .ok p := by
  obtain ⟨i, hi, htimeout⟩ :=
    numberAfter_cases culture (show ascii "timeout=" ≠ [] by decide) slice
  obtain ⟨j, hj, hmax⟩ := numberAfter_cases culture (show ascii "max=" ≠ [] by decide) slice
  rw [readSlice, do_of_ok hi, htimeout]
  split_ifs with hpos
  · rfl
  · rw [do_of_ok hj, hmax]
    split_ifs with hfound
    · rfl
    · rfl

/-- Where every number is an `int`, the last ones are kept. -/
structure Kept (culture : CharCase) (pieces : List (List UInt8)) (p : KeepAlive) : Prop where
  numbers : ∀ number ∈ timeoutsOf culture pieces ++ maxesOf culture pieces, ∃ z, number = .ok z
  isTimeout : p.isTimeout = true ↔ timeoutsOf culture pieces ≠ []
  isMax : p.isMax = true ↔ maxesOf culture pieces ≠ []
  timeout : ∀ number ∈ (timeoutsOf culture pieces).getLast?, number = .ok p.timeout
  max : ∀ number ∈ (maxesOf culture pieces).getLast?, number = .ok p.max

section Kept
variable {pieces : List (List UInt8)} {slice : List UInt8}

theorem timeoutsOf_concat (culture : CharCase) (pieces : List (List UInt8)) (slice : List UInt8) :
    timeoutsOf culture (pieces ++ [slice]) = timeoutsOf culture pieces ++
      (numberAfter culture (ascii "timeout=") slice).toList := by
  unfold timeoutsOf
  rw [List.filterMap_append]
  cases hnumber : numberAfter culture (ascii "timeout=") slice <;> simp [hnumber]

theorem maxesOf_concat (culture : CharCase) (pieces : List (List UInt8)) (slice : List UInt8) :
    maxesOf culture (pieces ++ [slice]) =
      maxesOf culture pieces ++ (maxAfter culture slice).toList := by
  unfold maxesOf
  rw [List.filterMap_append]
  cases hnumber : maxAfter culture slice <;> simp [hnumber]

/-- A piece without a number changes nothing. -/
theorem Kept.nothing (hk : Kept culture pieces p)
    (ht : timeoutsOf culture (pieces ++ [slice]) = timeoutsOf culture pieces)
    (hm : maxesOf culture (pieces ++ [slice]) = maxesOf culture pieces) :
    Kept culture (pieces ++ [slice]) p := by
  constructor
  · rw [ht, hm]
    exact hk.numbers
  · rw [ht]
    exact hk.isTimeout
  · rw [hm]
    exact hk.isMax
  · rw [ht]
    exact hk.timeout
  · rw [hm]
    exact hk.max

theorem Kept.addTimeout (hk : Kept culture pieces p) {z : ℤ}
    (ht : timeoutsOf culture (pieces ++ [slice]) = timeoutsOf culture pieces ++ [.ok z])
    (hm : maxesOf culture (pieces ++ [slice]) = maxesOf culture pieces) :
    Kept culture (pieces ++ [slice]) { p with timeout := z, isTimeout := true } := by
  constructor
  · rw [ht, hm]
    intro number hmem
    simp only [List.mem_append, List.mem_singleton] at hmem
    rcases hmem with (hmem | rfl) | hmem
    · exact hk.numbers _ (List.mem_append_left _ hmem)
    · exact ⟨z, rfl⟩
    · exact hk.numbers _ (List.mem_append_right _ hmem)
  · simp [ht]
  · rw [hm]
    exact hk.isMax
  · simp [ht]
  · rw [hm]
    exact hk.max

theorem Kept.addMax (hk : Kept culture pieces p) {z : ℤ}
    (ht : timeoutsOf culture (pieces ++ [slice]) = timeoutsOf culture pieces)
    (hm : maxesOf culture (pieces ++ [slice]) = maxesOf culture pieces ++ [.ok z]) :
    Kept culture (pieces ++ [slice]) { p with max := z, isMax := true } := by
  constructor
  · rw [ht, hm]
    intro number hmem
    simp only [List.mem_append, List.mem_singleton] at hmem
    rcases hmem with hmem | hmem | rfl
    · exact hk.numbers _ (List.mem_append_left _ hmem)
    · exact hk.numbers _ (List.mem_append_right _ hmem)
    · exact ⟨z, rfl⟩
  · rw [ht]
    exact hk.isTimeout
  · simp [hm]
  · rw [ht]
    exact hk.timeout
  · simp [hm]

theorem Kept.concat (hk : Kept culture pieces p) {q : KeepAlive}
    (h : readSlice culture p slice = .ok q) : Kept culture (pieces ++ [slice]) q := by
  have ht := timeoutsOf_concat culture pieces slice
  have hm := maxesOf_concat culture pieces slice
  rw [readSlice_eq] at h
  cases hfirst : numberAfter culture (ascii "timeout=") slice with
  | some number =>
    have hnone : maxAfter culture slice = none := by
      rw [maxAfter, if_neg (by rw [hfirst]; nofun)]
    rw [hfirst] at h ht
    rw [hnone, Option.toList_none, List.append_nil] at hm
    obtain ⟨z, rfl, rfl⟩ := map_ok_iff.mp h
    exact hk.addTimeout ht hm
  | none =>
    have hsecond : maxAfter culture slice = numberAfter culture (ascii "max=") slice := by
      rw [maxAfter, if_pos hfirst]
    rw [hfirst] at h
    rw [hfirst, Option.toList_none, List.append_nil] at ht
    rw [hsecond] at hm
    dsimp only at h
    cases hnumber : numberAfter culture (ascii "max=") slice with
    | some number =>
      rw [hnumber] at h hm
      obtain ⟨z, rfl, rfl⟩ := map_ok_iff.mp h
      exact hk.addMax ht hm
    | none =>
      rw [hnumber] at h hm
      rw [Option.toList_none, List.append_nil] at hm
      cases h
      exact hk.nothing ht hm

end Kept

theorem kept_of_fold {pieces : List (List UInt8)}
    (h : pieces.foldlM (readSlice culture) {} = .ok p) : Kept culture pieces p := by
  induction pieces using List.reverseRecOn generalizing p with
  | nil =>
    cases h
    exact ⟨by simp [timeoutsOf, maxesOf], by simp [timeoutsOf], by simp [maxesOf],
      by simp [timeoutsOf], by simp [maxesOf]⟩
  | append_singleton pieces slice ih =>
    rw [List.foldlM_append] at h
    obtain ⟨q, hq, h⟩ := do_ok_iff.mp h
    rw [List.foldlM_cons] at h
    obtain ⟨q', hq', h⟩ := do_ok_iff.mp h
    cases h
    exact (ih hq).concat hq'

/-- Where every number is an `int`, no piece throws. -/
theorem fold_of_numbers {pieces : List (List UInt8)}
    (h : ∀ number ∈ timeoutsOf culture pieces ++ maxesOf culture pieces, ∃ z, number = .ok z)
    (p : KeepAlive) : ∃ q, pieces.foldlM (readSlice culture) p = .ok q := by
  induction pieces generalizing p with
  | nil => exact ⟨p, rfl⟩
  | cons slice pieces ih =>
    have hrest : ∀ number ∈ timeoutsOf culture pieces ++ maxesOf culture pieces,
        ∃ z, number = .ok z := by
      intro number hmem
      apply h
      rcases List.mem_append.mp hmem with hmem | hmem
      · obtain ⟨piece, hpiece, hnumber⟩ := List.mem_filterMap.mp hmem
        exact List.mem_append_left _
          (List.mem_filterMap.mpr ⟨piece, List.mem_cons_of_mem _ hpiece, hnumber⟩)
      · obtain ⟨piece, hpiece, hnumber⟩ := List.mem_filterMap.mp hmem
        exact List.mem_append_right _
          (List.mem_filterMap.mpr ⟨piece, List.mem_cons_of_mem _ hpiece, hnumber⟩)
    have hread : ∃ q, readSlice culture p slice = .ok q := by
      rw [readSlice_eq]
      cases hfirst : numberAfter culture (ascii "timeout=") slice with
      | some number =>
        obtain ⟨z, rfl⟩ := h number (List.mem_append_left _
          (List.mem_filterMap.mpr ⟨slice, List.mem_cons_self, hfirst⟩))
        exact ⟨_, rfl⟩
      | none =>
        cases hsecond : numberAfter culture (ascii "max=") slice with
        | some number =>
          have hmax : maxAfter culture slice = some number := by
            rw [maxAfter, if_pos hfirst, hsecond]
          obtain ⟨z, rfl⟩ := h number (List.mem_append_right _
            (List.mem_filterMap.mpr ⟨slice, List.mem_cons_self, hmax⟩))
          exact ⟨_, rfl⟩
        | none => exact ⟨_, rfl⟩
    obtain ⟨q, hq⟩ := hread
    obtain ⟨q', hq'⟩ := ih hrest q
    exact ⟨q', by rw [List.foldlM_cons, do_of_ok hq, hq']⟩

end KeepAlive

theorem exists_getLast? {α : Type} {l : List α} (h : l ≠ []) : ∃ a, l.getLast? = some a :=
  ⟨l.getLast h, List.getLast?_eq_some_getLast h⟩

/-- The call is exact just when both parameters are read, with the numbers that are written. -/
theorem keepAliveExact_iff (culture : CharCase) {spans : List (List UInt8)} {value : List UInt8}
    (hvalue : tryGetFieldValueCI NAME_KEEP_ALIVE spans = some value) :
    KeepAliveExact culture spans value ↔ BothRead culture value := by
  obtain ⟨hall, fuel, hfuel⟩ := KeepAlive.readSlices_fold culture (s := {}) (p := {})
    value (Nat.zero_le _) rfl
  have hcall : ∀ fuel, tryGetKeepAlive culture spans fuel =
      KeepAlive.readSlices culture value {} {} fuel >>= fun p =>
        .ok (p.isTimeout && p.isMax, p) := by
    intro fuel
    rw [tryGetKeepAlive, hvalue]
  constructor
  · rintro ⟨fuel, found, p, hreturns, hfound, hreported⟩
    rw [hcall] at hreturns
    obtain ⟨q, hq, hreturns⟩ := do_ok_iff.mp hreturns
    cases hreturns
    have houtcome := (hall fuel).resolve_left (by rw [hq]; nofun)
    rw [hq] at houtcome
    cases hfold : (slices value).foldlM (KeepAlive.readSlice culture) {} with
    | error fault =>
      rw [hfold] at houtcome
      cases houtcome
    | ok p' =>
      rw [hfold, KeepAlive.outcome] at houtcome
      split_ifs at houtcome with hboth
      cases houtcome
      have hk := KeepAlive.kept_of_fold hfold
      have htrue : (p.isTimeout && p.isMax) = true := by simp [hboth.1, hboth.2]
      obtain ⟨t, ht⟩ := exists_getLast? (hk.isTimeout.mp hboth.1)
      obtain ⟨m, hm⟩ := exists_getLast? (hk.isMax.mp hboth.2)
      obtain ⟨htimeout, hmax⟩ := hreported htrue
      refine ⟨hk.numbers, hfound.mp htrue, ⟨_, ?_, htimeout⟩, ⟨_, ?_, hmax⟩⟩
      · rw [ht, hk.timeout t ht]
      · rw [hm, hk.max m hm]
  · rintro ⟨hnumbers, hwritten, ⟨t, ht, htimeout⟩, ⟨m, hm, hmax⟩⟩
    obtain ⟨p, hp⟩ := KeepAlive.fold_of_numbers hnumbers {}
    have hk := KeepAlive.kept_of_fold hp
    have hsome : ∀ {l : List (Except Fault ℤ)} {a}, l.getLast? = some a → l ≠ [] := by
      rintro l a hlast rfl
      cases hlast
    have hboth : p.isTimeout ∧ p.isMax := ⟨hk.isTimeout.mpr (hsome ht), hk.isMax.mpr (hsome hm)⟩
    have htEq : t = p.timeout := Except.ok.inj (hk.timeout _ ht)
    have hmEq : m = p.max := Except.ok.inj (hk.max _ hm)
    have htrue : (p.isTimeout && p.isMax) = true := by simp [hboth.1, hboth.2]
    rw [hp, KeepAlive.outcome, if_pos hboth] at hfuel
    refine ⟨fuel, _, p, ?_, iff_of_true htrue hwritten, fun _ => ⟨htEq ▸ htimeout, hmEq ▸ hmax⟩⟩
    rw [hcall, hfuel]
    rfl

theorem keepAliveExact_iff_five :
    tryGetFieldValueCI NAME_KEEP_ALIVE [asciiBytes "Keep-Alive: timeout=5, max=100\r\n"] =
        some (asciiBytes "timeout=5, max=100") ∧
      (KeepAliveExact .invariantGlobalization
          [asciiBytes "Keep-Alive: timeout=5, max=100\r\n"] (asciiBytes "timeout=5, max=100") ↔
        BothRead .invariantGlobalization (asciiBytes "timeout=5, max=100")) :=
  ⟨by decide, keepAliveExact_iff .invariantGlobalization (by decide)⟩

/-- A value that lacks one of the parameters is read for ever. -/
theorem tryGetKeepAlive_diverges (culture : CharCase) {spans : List (List UInt8)}
    {value : List UInt8} {p : KeepAlive}
    (hvalue : tryGetFieldValueCI NAME_KEEP_ALIVE spans = some value)
    (hfold : (slices value).foldlM (KeepAlive.readSlice culture) {} = .ok p)
    (hnot : ¬ (p.isTimeout ∧ p.isMax)) (fuel : ℕ) :
    tryGetKeepAlive culture spans fuel = .error .diverges := by
  have hall := (KeepAlive.readSlices_fold culture (s := {}) (p := {}) value (Nat.zero_le _) rfl).1
  rw [hfold, KeepAlive.outcome, if_neg hnot] at hall
  rw [tryGetKeepAlive, hvalue]
  simp only [(hall fuel).elim id id]
  rfl

theorem not_keepAliveExact_timeout :
    tryGetFieldValueCI NAME_KEEP_ALIVE [asciiBytes "Keep-Alive: timeout=5\r\n"] =
        some (asciiBytes "timeout=5") ∧
      ¬ KeepAliveExact .invariantGlobalization [asciiBytes "Keep-Alive: timeout=5\r\n"]
        (asciiBytes "timeout=5") := by
  refine ⟨by decide, ?_⟩
  rintro ⟨fuel, found, p, hreturns, -⟩
  have hfold : (slices (asciiBytes "timeout=5")).foldlM
      (KeepAlive.readSlice .invariantGlobalization) {} =
        .ok { timeout := 5, isTimeout := true } := by rfl
  rw [tryGetKeepAlive_diverges .invariantGlobalization (by decide) hfold (by decide) fuel]
    at hreturns
  cases hreturns

end DecodingProxy.Piped
