import DecodingProxy.Buffers.SpanAsString
import DecodingProxy.Lib.Fuel
import DecodingProxy.Lib.Splits

/-!
# `ExtensionsForStringBuilder`

`IndexAfter` and `RangeContains` search a window of a text. The loops read the text through the
indexer, so that the same loops can be run on an indexer that has nothing outside the window. The
greedy check of `IndexAfter` moves on by two characters for each one that it compares.
-/

namespace DecodingProxy.Buffers.StringBuilders
open DecodingProxy.Fuel DecodingProxy.Restarts DecodingProxy.Runtime DecodingProxy.Splits Relation

/-- `sb[i]`. -/
abbrev Indexer := ℕ → Except Fault UInt16

def indexer (text : Str) : Indexer := fun i => Str.item text i

/-- The fault of a look outside the window. -/
def outside : Fault := .raised .notSupported

/-- The indexer that refuses every character outside the window. -/
def within (start length : ℕ) (sb : Indexer) : Indexer := fun i =>
  if start ≤ i ∧ i < start + length then sb i else .error outside

/-! ### `IndexAfter` -/

/-- The greedy check of what is left of the text behind index `i`: whether nothing differs, and by
how much it moves `i`. -/
def greedyCheck (sb : Indexer) (i : ℕ) : List UInt16 → Except Fault (Bool × ℕ)
  | [] => .ok (true, 0)
  | c :: rest => do
    let b ← sb (i + 1)
    if b ≠ c then .ok (false, 1)
    else
      -- `i++` in the body, and again in the head of the loop
      let (whole, moved) ← greedyCheck sb (i + 2) rest
      .ok (whole, moved + 2)

/-- The comparison at index `i`: whether nothing differs, and by how much it moves `i`. -/
def checkAt (sb : Indexer) (substring : Str) (i : ℕ) : Except Fault (Bool × ℕ) := do
  let b ← sb i
  let c ← Str.item substring 0
  if b = c then greedyCheck sb i (substring.drop 1) else .ok (false, 0)

def searchFrom (sb : Indexer) (substring : Str) (endItermediary i : ℕ) : Except Fault ℤ :=
  if i < endItermediary then do
    let (whole, moved) ← checkAt sb substring i
    if whole then .ok (i + moved + 1 : ℕ)
    else searchFrom sb substring endItermediary (i + moved + 1)
  else if endItermediary < i then .ok (-1)
  else do
    let (whole, moved) ← checkAt sb substring i
    if whole then .ok (i + moved + 1 : ℕ) else .ok (-1)
termination_by endItermediary - i

def indexAfter (sb : Indexer) (start length : ℕ) (substring : Str) : Except Fault ℤ :=
  if length < substring.length then .ok (-1)
  else searchFrom sb substring (start + length - substring.length) start

/-! ### `RangeContains` -/

/-- The inner loop from index `i` on: whether nothing differs, and by how much it moves `i`. -/
def compareAt (src : Indexer) (i : ℕ) : List UInt16 → Except Fault (Bool × ℕ)
  | [] => .ok (true, 0)
  | c :: rest => do
    let b ← src i
    if b ≠ c then .ok (false, 0)
    else
      let (whole, moved) ← compareAt src (i + 1) rest
      .ok (whole, moved + 1)

/-- The last loop, which runs to the end of the text and not of the window. -/
def compareToEnd (src : Indexer) (total i : ℕ) : List UInt16 → Except Fault Bool
  | [] =>
    if i < total then do
      let _ ← src i
      .error (.raised .indexOutOfRange)
    else .ok true
  | c :: rest =>
    if i < total then do
      let b ← src i
      if b ≠ c then .ok false else compareToEnd src total (i + 1) rest
    else .ok true

def rangeFrom (src : Indexer) (total : ℕ) (substring : Str) (endItermediary i : ℕ) :
    Except Fault Bool :=
  if i < endItermediary then do
    let (whole, moved) ← compareAt src i substring
    if whole then .ok true else rangeFrom src total substring endItermediary (i + moved + 1)
  else compareToEnd src total i substring
termination_by endItermediary - i

/-- `total` is the length of the text. -/
def rangeContains (src : Indexer) (total srcStart srcLength : ℕ) (substring : Str) :
    Except Fault Bool :=
  if srcLength < substring.length then .ok false
  else rangeFrom src total substring (srcStart + srcLength - substring.length) srcStart

/-! ### Looks outside the window -/

theorem within_below (start length : ℕ) (sb : Indexer) (i : ℕ) :
    Below outside (within start length sb i) (sb i) := by
  unfold within
  split_ifs
  · exact .refl _
  · exact .inl rfl

section Below
variable {narrow sb : Indexer} (hbelow : ∀ i, Below outside (narrow i) (sb i))
include hbelow

theorem greedyCheck_below (rest : List UInt16) (i : ℕ) :
    Below outside (greedyCheck narrow i rest) (greedyCheck sb i rest) := by
  induction rest generalizing i with
  | nil => exact .refl _
  | cons c rest ih =>
    refine (hbelow (i + 1)).bind fun b => ?_
    split_ifs
    · exact .refl _
    · exact (ih (i + 2)).bind fun _ => .refl _

theorem checkAt_below (substring : Str) (i : ℕ) :
    Below outside (checkAt narrow substring i) (checkAt sb substring i) := by
  refine (hbelow i).bind fun b => Below.bind (.refl _) fun c => ?_
  split_ifs
  · exact greedyCheck_below hbelow _ _
  · exact .refl _

theorem searchFrom_below (substring : Str) (endItermediary i : ℕ) :
    Below outside (searchFrom narrow substring endItermediary i)
      (searchFrom sb substring endItermediary i) := by
  induction hn : endItermediary - i using Nat.strong_induction_on generalizing i with
  | _ n ih =>
    rw [searchFrom, searchFrom]
    split_ifs with hmore hpast
    · refine (checkAt_below hbelow substring i).bind fun found => ?_
      obtain ⟨whole, moved⟩ := found
      dsimp only
      split_ifs
      · exact .refl _
      · exact ih _ (by omega) _ rfl
    · exact .refl _
    · exact (checkAt_below hbelow substring i).bind fun _ => .refl _

theorem indexAfter_below (start length : ℕ) (substring : Str) :
    Below outside (indexAfter narrow start length substring)
      (indexAfter sb start length substring) := by
  unfold indexAfter
  split_ifs
  · exact .refl _
  · exact searchFrom_below hbelow _ _ _

theorem compareAt_below (rest : List UInt16) (i : ℕ) :
    Below outside (compareAt narrow i rest) (compareAt sb i rest) := by
  induction rest generalizing i with
  | nil => exact .refl _
  | cons c rest ih =>
    refine (hbelow i).bind fun b => ?_
    split_ifs
    · exact .refl _
    · exact (ih (i + 1)).bind fun _ => .refl _

theorem compareToEnd_below (total i : ℕ) (rest : List UInt16) :
    Below outside (compareToEnd narrow total i rest) (compareToEnd sb total i rest) := by
  induction rest generalizing i with
  | nil =>
    unfold compareToEnd
    split_ifs
    · exact (hbelow i).bind fun _ => .refl _
    · exact .refl _
  | cons c rest ih =>
    unfold compareToEnd
    split_ifs
    · refine (hbelow i).bind fun b => ?_
      split_ifs
      · exact .refl _
      · exact ih (i + 1)
    · exact .refl _

theorem rangeFrom_below (total : ℕ) (substring : Str) (endItermediary i : ℕ) :
    Below outside (rangeFrom narrow total substring endItermediary i)
      (rangeFrom sb total substring endItermediary i) := by
  induction hn : endItermediary - i using Nat.strong_induction_on generalizing i with
  | _ n ih =>
    rw [rangeFrom, rangeFrom]
    split_ifs with hmore
    · refine (compareAt_below hbelow substring i).bind fun found => ?_
      obtain ⟨whole, moved⟩ := found
      dsimp only
      split_ifs
      · exact .refl _
      · exact ih _ (by omega) _ rfl
    · exact compareToEnd_below hbelow total i substring

theorem rangeContains_below (total srcStart srcLength : ℕ) (substring : Str) :
    Below outside (rangeContains narrow total srcStart srcLength substring)
      (rangeContains sb total srcStart srcLength substring) := by
  unfold rangeContains
  split_ifs
  · exact .refl _
  · exact rangeFrom_below hbelow _ _ _ _

end Below

/-! ### The window as a list -/

/-- From index `i` on there are the characters of `view`, and nothing behind them. -/
def Shows (sb : Indexer) (i : ℕ) (view : Str) : Prop :=
  ∀ k, sb (i + k) = match view[k]? with
    | some b => .ok b
    | none => .error outside

theorem within_shows (front window behind : Str) :
    Shows (within front.length window.length (indexer (front ++ window ++ behind))) front.length
      window := by
  intro k
  unfold within indexer Str.item
  by_cases hk : k < window.length
  · rw [if_pos (by omega), List.append_assoc, List.getElem?_append_right (by omega),
      Nat.add_sub_cancel_left, List.getElem?_append_left hk, List.getElem?_eq_getElem hk]
  · rw [if_neg (by omega), List.getElem?_eq_none (by omega)]

section Shows
variable {sb : Indexer} {i : ℕ} {view : Str} {b : UInt16}

theorem Shows.head (h : Shows sb i (b :: view)) : sb i = .ok b := h 0

theorem Shows.none (h : Shows sb i []) : sb i = .error outside := h 0

theorem Shows.drop (h : Shows sb i view) (n : ℕ) : Shows sb (i + n) (view.drop n) := by
  intro k
  rw [Nat.add_assoc, h, List.getElem?_drop]

theorem Shows.tail (h : Shows sb i (b :: view)) : Shows sb (i + 1) view := h.drop 1

end Shows

/-! ### The greedy check -/

section Greedy
variable {α : Type}

def everySecond : List α → List α
  | [] => []
  | [b] => [b]
  | b :: _ :: text => b :: everySecond text

/-- What the check compares with the text: the first two characters, and then every second one. -/
def looked : List α → List α
  | [] => []
  | b :: text => b :: everySecond text

theorem everySecond_cons (b : α) (text : List α) :
    everySecond (b :: text) = b :: everySecond (text.drop 1) := by
  cases text <;> rfl

variable [DecidableEq α] {text rest after : List α}

/-- What stands behind the character that differs, behind the first one. -/
def behindGreedy : List α → List α → Option (List α)
  | b :: text, c :: rest => if b = c then behindGreedy (text.drop 1) rest else some text
  | _, _ => none

def behindCheck : List α → List α → Option (List α)
  | b :: text, c :: rest => if b = c then behindGreedy text rest else some text
  | _, _ => none

theorem behindGreedy_none_iff :
    behindGreedy text rest = none ↔ everySecond text <+: rest ∨ rest <+: everySecond text := by
  induction rest generalizing text with
  | nil => simp [behindGreedy]
  | cons c rest ih =>
    cases text with
    | nil => simp [behindGreedy, everySecond]
    | cons b text =>
      rw [behindGreedy, everySecond_cons, List.cons_prefix_cons, List.cons_prefix_cons]
      split_ifs with heq
      · rw [ih]
        simp [heq]
      · simp [heq, Ne.symm heq]

theorem behindGreedy_length (h : behindGreedy text rest = some after) :
    after.length < text.length := by
  induction rest generalizing text with
  | nil => simp [behindGreedy] at h
  | cons c rest ih =>
    cases text with
    | nil => simp [behindGreedy] at h
    | cons b text =>
      rw [behindGreedy] at h
      split_ifs at h
      · have hlt := ih h
        rw [List.length_drop] at hlt
        rw [List.length_cons]
        omega
      · cases h
        simp

theorem behindGreedy_suffix (h : behindGreedy text rest = some after) : after <:+ text := by
  induction rest generalizing text with
  | nil => simp [behindGreedy] at h
  | cons c rest ih =>
    cases text with
    | nil => simp [behindGreedy] at h
    | cons b text =>
      rw [behindGreedy] at h
      split_ifs at h
      · exact ((ih h).trans (List.drop_suffix 1 text)).trans (List.suffix_cons b text)
      · cases h
        exact List.suffix_cons _ _

theorem behindCheck_none_iff :
    behindCheck text rest = none ↔ looked text <+: rest ∨ rest <+: looked text := by
  cases text with
  | nil => simp [behindCheck, looked]
  | cons b text =>
    cases rest with
    | nil => simp [behindCheck]
    | cons c rest =>
      rw [behindCheck, looked, List.cons_prefix_cons, List.cons_prefix_cons]
      split_ifs with heq
      · rw [behindGreedy_none_iff]
        simp [heq]
      · simp [heq, Ne.symm heq]

theorem behindCheck_suffix (h : behindCheck text rest = some after) :
    after.length < text.length ∧ after <:+ text := by
  cases text with
  | nil => simp [behindCheck] at h
  | cons b text =>
    cases rest with
    | nil => simp [behindCheck] at h
    | cons c rest =>
      rw [behindCheck] at h
      rw [List.length_cons]
      split_ifs at h
      · exact ⟨Nat.lt_succ_of_lt (behindGreedy_length h),
          (behindGreedy_suffix h).trans (List.suffix_cons b text)⟩
      · cases h
        exact ⟨Nat.lt_succ_self _, List.suffix_cons _ _⟩

end Greedy

section Check
variable {sb : Indexer} {i : ℕ} {view : Str}

theorem greedyCheck_eq {rest : List UInt16} (h : Shows sb (i + 1) view) :
    greedyCheck sb i rest =
      match behindGreedy view rest with
      | some after => .ok (false, view.length - after.length)
      | none =>
        if rest <+: everySecond view then .ok (true, 2 * rest.length) else .error outside := by
  induction rest generalizing i view with
  | nil => simp [greedyCheck, behindGreedy]
  | cons c rest ih =>
    cases view with
    | nil =>
      rw [greedyCheck, h.none]
      simp [behindGreedy, everySecond, Except.bind, bind]
    | cons b view =>
      have hnext : Shows sb (i + 2 + 1) (view.drop 1) := h.drop 2
      rw [greedyCheck, h.head, behindGreedy]
      by_cases heq : b = c
      · rw [if_pos heq]
        simp only [Except.bind, bind, if_neg (not_not.mpr heq), ih hnext]
        cases hafter : behindGreedy (view.drop 1) rest with
        | some after =>
          have hlt := behindGreedy_length hafter
          rw [List.length_drop] at hlt
          simp only [List.length_drop, List.length_cons, Except.ok.injEq, Prod.mk.injEq, true_and]
          omega
        | none =>
          have hiff : c :: rest <+: everySecond (b :: view) ↔
              rest <+: everySecond (view.drop 1) := by
            rw [everySecond_cons, List.cons_prefix_cons]
            simp [heq]
          by_cases hwhole : rest <+: everySecond (view.drop 1)
          · rw [if_pos hwhole, if_pos (hiff.mpr hwhole)]
            rfl
          · rw [if_neg hwhole, if_neg fun h => hwhole (hiff.mp h)]
      · rw [if_neg heq]
        simp [Except.bind, bind, heq]

theorem checkAt_eq {substring : Str} (hne : substring ≠ []) (h : Shows sb i view) :
    checkAt sb substring i =
      match behindCheck view substring with
      | some after => .ok (false, view.length - 1 - after.length)
      | none =>
        if substring <+: looked view then .ok (true, 2 * (substring.length - 1))
        else .error outside := by
  obtain ⟨c, rest, rfl⟩ := List.exists_cons_of_ne_nil hne
  cases view with
  | nil =>
    rw [checkAt, h.none]
    simp [behindCheck, looked, Except.bind, bind]
  | cons b view =>
    have hitem : Str.item (c :: rest) 0 = .ok c := rfl
    rw [checkAt, h.head, behindCheck]
    by_cases heq : b = c
    · rw [if_pos heq]
      simp only [Except.bind, bind, hitem, if_pos heq, List.drop_one, List.tail_cons,
        greedyCheck_eq h.tail]
      have hiff : c :: rest <+: looked (b :: view) ↔ rest <+: everySecond view := by
        rw [looked, List.cons_prefix_cons]
        simp [heq]
      simp only [hiff, List.length_cons, Nat.add_sub_cancel]
    · rw [if_neg heq]
      simp only [Except.bind, bind, hitem, if_neg heq, List.length_cons, Nat.add_sub_cancel,
        Nat.sub_self]

end Check

/-! ### The search of `IndexAfter` -/

/-- A check fails, and the loop goes on with what is left behind the character that differs. -/
def Fails (substring view after : Str) : Prop :=
  substring.length < view.length ∧ behindCheck view substring = some after

/-- The search comes to what is left from `view` on. -/
def Stops (substring : Str) : Str → Str → Prop := ReflTransGen (Fails substring)

/-- A check takes the text for found. -/
def Sees (substring window view : Str) : Prop :=
  Stops substring window view ∧ substring.length ≤ view.length ∧ substring <+: looked view

/-- A check comes to the end of the window without a character that differs. -/
def RunsOver (substring window view : Str) : Prop :=
  Stops substring window view ∧ substring.length ≤ view.length ∧
    (looked view).length < substring.length ∧ looked view <+: substring

section Search
variable {sb : Indexer} {substring window view after : Str} {i endItermediary : ℕ}

theorem Stops.length_le (h : Stops substring window view) : view.length ≤ window.length := by
  induction h with
  | refl => exact le_rfl
  | tail _ hfails ih => exact (behindCheck_suffix hfails.2).1.le.trans ih

theorem searchFrom_fails (hne : substring ≠ []) (hshows : Shows sb i view)
    (hend : endItermediary + substring.length = i + view.length)
    (hfails : Fails substring view after) :
    searchFrom sb substring endItermediary i =
        searchFrom sb substring endItermediary (i + (view.length - after.length)) ∧
      Shows sb (i + (view.length - after.length)) after := by
  obtain ⟨hlong, hafter⟩ := hfails
  obtain ⟨hlt, hsuffix⟩ := behindCheck_suffix hafter
  constructor
  · rw [searchFrom, if_pos (by omega), checkAt_eq hne hshows, hafter]
    have hindex : i + (view.length - 1 - after.length) + 1 = i + (view.length - after.length) := by
      omega
    simp only [Except.bind, bind, Bool.false_eq_true, if_false, hindex]
  · have hdrop := hshows.drop (view.length - after.length)
    rwa [← List.suffix_iff_eq_drop.mp hsuffix] at hdrop

/-- The run lemma: the search goes on from every stop as it does from the start. -/
theorem searchFrom_stops (hne : substring ≠ []) (hstops : Stops substring window view)
    (hshows : Shows sb i window)
    (hend : endItermediary + substring.length = i + window.length) :
    searchFrom sb substring endItermediary i =
        searchFrom sb substring endItermediary (i + (window.length - view.length)) ∧
      Shows sb (i + (window.length - view.length)) view := by
  induction hstops using ReflTransGen.head_induction_on generalizing i with
  | refl => simpa using hshows
  | @head window next hfails hrest ih =>
    obtain ⟨hsame, hnext⟩ := searchFrom_fails hne hshows hend hfails
    have hlt := (behindCheck_suffix hfails.2).1
    have hle := Stops.length_le hrest
    obtain ⟨hlater, hview⟩ := ih hnext (by omega)
    have hindex : i + (window.length - next.length) + (next.length - view.length) =
        i + (window.length - view.length) := by
      omega
    rw [hindex] at hlater hview
    exact ⟨hsame.trans hlater, hview⟩

theorem searchFrom_sees (hne : substring ≠ []) (hshows : Shows sb i view)
    (hend : endItermediary + substring.length = i + view.length)
    (hle : substring.length ≤ view.length) (hwhole : substring <+: looked view) :
    searchFrom sb substring endItermediary i = .ok (i + 2 * substring.length - 1 : ℤ) := by
  have hpos := List.length_pos_of_ne_nil hne
  have hcheck : checkAt sb substring i = .ok (true, 2 * (substring.length - 1)) := by
    rw [checkAt_eq hne hshows, behindCheck_none_iff.mpr (.inr hwhole)]
    exact if_pos hwhole
  have hindex : ((i + 2 * (substring.length - 1) + 1 : ℕ) : ℤ) = i + 2 * substring.length - 1 := by
    omega
  rw [searchFrom, hcheck]
  simp only [Except.bind, bind, if_true, hindex]
  rw [if_neg (show ¬ endItermediary < i by omega)]
  exact ite_self _

theorem searchFrom_runsOver (hne : substring ≠ []) (hshows : Shows sb i view)
    (hend : endItermediary + substring.length = i + view.length)
    (hle : substring.length ≤ view.length) (hshort : (looked view).length < substring.length)
    (hfront : looked view <+: substring) :
    searchFrom sb substring endItermediary i = .error outside := by
  have hcheck : checkAt sb substring i = .error outside := by
    rw [checkAt_eq hne hshows, behindCheck_none_iff.mpr (.inl hfront)]
    apply if_neg
    intro hwhole
    have hlong := hwhole.length_le
    omega
  rw [searchFrom, hcheck, if_neg (show ¬ endItermediary < i by omega)]
  exact ite_self _

/-- A stop that is no check, or at which the last check fails. -/
theorem searchFrom_absent (hne : substring ≠ []) (hshows : Shows sb i view)
    (hend : endItermediary + substring.length = i + view.length)
    (hlast : ∀ after, ¬ Fails substring view after)
    (hchecked : substring.length ≤ view.length → ∃ after, behindCheck view substring = some after) :
    searchFrom sb substring endItermediary i = .ok (-1) := by
  rw [searchFrom]
  by_cases hle : substring.length ≤ view.length
  · obtain ⟨after, hafter⟩ := hchecked hle
    have hsame : view.length ≤ substring.length := by
      apply Nat.le_of_not_lt
      intro hlong
      exact hlast after ⟨hlong, hafter⟩
    rw [if_neg (by omega), if_neg (by omega), checkAt_eq hne hshows, hafter]
    rfl
  · rw [if_neg (by omega), if_pos (by omega)]

theorem exists_last (substring window : Str) :
    ∃ view, Stops substring window view ∧ ∀ after, ¬ Fails substring view after := by
  induction hn : window.length using Nat.strong_induction_on generalizing window with
  | _ n ih =>
    by_cases hlast : ∀ after, ¬ Fails substring window after
    · exact ⟨window, .refl, hlast⟩
    · obtain ⟨after, hfails⟩ := not_forall_not.mp hlast
      have hlt := (behindCheck_suffix hfails.2).1
      obtain ⟨view, hstops, hview⟩ := ih _ (hn ▸ hlt) after rfl
      exact ⟨view, hstops.head hfails, hview⟩

/-- The index behind the first occurrence in the window, or -1 if there is none. -/
def IsIndexAfter (start : ℕ) (substring window : Str) (index : ℤ) : Prop :=
  (∀ before behind, FirstAt substring window before behind →
      index = start + before.length + substring.length) ∧
    (index = -1 ↔ ¬ substring <:+: window)

/-- No check looks past the window, a text that occurs is taken for found, and a check that takes
it for found begins as far in front of the first occurrence as the check moves too far. -/
structure FindsFirst (substring window : Str) : Prop where
  inside : ∀ view, ¬ RunsOver substring window view
  seen : substring <:+: window → ∃ view, Sees substring window view
  first : ∀ view, Sees substring window view → ∃ before behind,
    FirstAt substring window before behind ∧
      before.length = window.length - view.length + (substring.length - 1)

/-- What the search of a window ends with. -/
theorem indexAfter_cases (hne : substring ≠ []) (hshows : Shows sb i window) :
    (∀ view, Sees substring window view → indexAfter sb i window.length substring =
        .ok (i + (window.length - view.length) + 2 * substring.length - 1 : ℤ)) ∧
      (∀ view, RunsOver substring window view →
        indexAfter sb i window.length substring = .error outside) ∧
      ((∀ view, ¬ Sees substring window view) → (∀ view, ¬ RunsOver substring window view) →
        indexAfter sb i window.length substring = .ok (-1)) := by
  have hpos := List.length_pos_of_ne_nil hne
  by_cases hshort : window.length < substring.length
  · have hnone : indexAfter sb i window.length substring = .ok (-1) := if_pos hshort
    have hlong : ∀ view, Stops substring window view → ¬ substring.length ≤ view.length := by
      intro view hstops
      have hle := hstops.length_le
      omega
    refine ⟨fun view hsees => ?_, fun view hruns => ?_, fun _ _ => hnone⟩
    · exact absurd hsees.2.1 (hlong view hsees.1)
    · exact absurd hruns.2.1 (hlong view hruns.1)
  · have hsearch : indexAfter sb i window.length substring =
        searchFrom sb substring (i + window.length - substring.length) i := if_neg hshort
    have hend : i + window.length - substring.length + substring.length = i + window.length := by
      omega
    rw [hsearch]
    refine ⟨?_, ?_, ?_⟩
    · intro view ⟨hstops, hle, hwhole⟩
      have hview := hstops.length_le
      obtain ⟨hsame, hrest⟩ := searchFrom_stops hne hstops hshows hend
      rw [hsame, searchFrom_sees hne hrest (by omega) hle hwhole]
      push_cast [hview]
      rfl
    · intro view ⟨hstops, hle, hover, hfront⟩
      have hview := hstops.length_le
      obtain ⟨hsame, hrest⟩ := searchFrom_stops hne hstops hshows hend
      rw [hsame, searchFrom_runsOver hne hrest (by omega) hle hover hfront]
    · intro hsees hruns
      obtain ⟨view, hstops, hlast⟩ := exists_last substring window
      have hview := hstops.length_le
      obtain ⟨hsame, hrest⟩ := searchFrom_stops hne hstops hshows hend
      rw [hsame, searchFrom_absent hne hrest (by omega) hlast]
      intro hle
      cases hafter : behindCheck view substring with
      | some after => exact ⟨after, rfl⟩
      | none =>
        rcases behindCheck_none_iff.mp hafter with hfront | hwhole
        · have hover : (looked view).length < substring.length := by
            apply Nat.lt_of_not_le
            intro hlong
            exact hsees view ⟨hstops, hle, hfront.eq_of_length_le hlong ▸ List.prefix_rfl⟩
          exact absurd ⟨hstops, hle, hover, hfront⟩ (hruns view)
        · exact absurd ⟨hstops, hle, hwhole⟩ (hsees view)

theorem indexAfter_exact_iff (hne : substring ≠ []) (hshows : Shows sb i window) :
    (∃ index, indexAfter sb i window.length substring = .ok index ∧
        IsIndexAfter i substring window index) ↔ FindsFirst substring window := by
  have hpos := List.length_pos_of_ne_nil hne
  obtain ⟨hsees, hruns, habsent⟩ := indexAfter_cases hne hshows
  constructor
  · intro ⟨index, hindex, hright, hnone⟩
    have hinside : ∀ view, ¬ RunsOver substring window view := by
      intro view hover
      rw [hruns view hover] at hindex
      cases hindex
    refine ⟨hinside, ?_, ?_⟩
    · intro hoccurs
      by_contra hnot
      rw [habsent (not_exists.mp hnot) hinside, Except.ok.injEq] at hindex
      exact hnone.mp hindex.symm hoccurs
    · intro view hview
      have hle := hview.1.length_le
      rw [hsees view hview, Except.ok.injEq] at hindex
      have hoccurs : substring <:+: window := by
        by_contra hnot
        have hminus := hnone.mpr hnot
        omega
      obtain ⟨before, behind, hat⟩ := FirstAt.exists_of_infix hoccurs
      have hplace := hright before behind hat
      exact ⟨before, behind, hat, by omega⟩
  · intro hfinds
    by_cases hview : ∃ view, Sees substring window view
    · obtain ⟨view, hview⟩ := hview
      have hle := hview.1.length_le
      obtain ⟨before, behind, hat, hplace⟩ := hfinds.first view hview
      refine ⟨_, hsees view hview, ?_, ?_⟩
      · intro before' behind' hat'
        rw [(hat'.unique hat).1]
        omega
      · refine iff_of_false (by omega) (not_not.mpr hat.infix)
    · refine ⟨_, habsent (not_exists.mp hview) hfinds.inside, ?_, ?_⟩
      · intro before behind hat
        exact absurd (hfinds.seen hat.infix) hview
      · exact iff_of_true rfl fun hoccurs => hview (hfinds.seen hoccurs)

end Search

/-! ### The loops of `RangeContains` -/

/-- The text is found, or missed, as by a search of the window alone, and the comparison of what is
left at the end does not go on behind the window. -/
structure ContainsInside (substring window behind : Str) : Prop where
  exact : ExactAtBack (substring <:+: window) substring window
  inside : behind = [] ∨ ∀ view, Stop (backAgain substring.length) substring window view →
    view.length ≤ substring.length → ¬ view <+: substring

section Range
variable {sb : Indexer} {substring rest window view behind : Str} {i total endItermediary : ℕ}

theorem compareAt_eq (h : Shows sb i view) :
    compareAt sb i rest =
      match afterMismatch view rest with
      | some after => .ok (false, view.length - 1 - after.length)
      | none => if rest <+: view then .ok (true, rest.length) else .error outside := by
  induction rest generalizing i view with
  | nil => simp [compareAt, afterMismatch]
  | cons c rest ih =>
    cases view with
    | nil =>
      rw [compareAt, h.none]
      simp [afterMismatch, Except.bind, bind]
    | cons b view =>
      rw [compareAt, h.head, afterMismatch]
      by_cases heq : b = c
      · rw [if_pos heq]
        simp only [Except.bind, bind, if_neg (not_not.mpr heq), ih h.tail]
        cases hafter : afterMismatch view rest with
        | some after =>
          have hlt := (afterMismatch_length hafter).1
          simp only [List.length_cons, Except.ok.injEq, Prod.mk.injEq, true_and]
          omega
        | none =>
          have hiff : c :: rest <+: b :: view ↔ rest <+: view := by
            rw [List.cons_prefix_cons]
            simp [heq]
          by_cases hwhole : rest <+: view
          · rw [if_pos hwhole, if_pos (hiff.mpr hwhole)]
            rfl
          · rw [if_neg hwhole, if_neg fun h => hwhole (hiff.mp h)]
      · rw [if_neg heq]
        simp [Except.bind, bind, heq]

theorem compareToEnd_eq (h : Shows sb i view) (htotal : total = i + view.length + behind.length)
    (hle : view.length ≤ rest.length) :
    compareToEnd sb total i rest =
      if view <+: rest then (if behind = [] then .ok true else .error outside)
      else .ok false := by
  induction rest generalizing i view with
  | nil =>
    obtain rfl : view = [] := List.eq_nil_of_length_eq_zero (Nat.le_zero.mp hle)
    rw [compareToEnd, h.none, if_pos List.prefix_rfl]
    cases behind with
    | nil => simp [htotal]
    | cons b behind => simp [htotal, Except.bind, bind]
  | cons c rest ih =>
    cases view with
    | nil =>
      rw [compareToEnd, h.none, if_pos List.nil_prefix]
      cases behind with
      | nil => simp [htotal]
      | cons b behind => simp [htotal, Except.bind, bind]
    | cons b view =>
      rw [List.length_cons] at htotal
      rw [compareToEnd, h.head, if_pos (by omega)]
      by_cases heq : b = c
      · have hiff : b :: view <+: c :: rest ↔ view <+: rest := by
          rw [List.cons_prefix_cons]
          simp [heq]
        simp only [Except.bind, bind, if_neg (not_not.mpr heq), hiff]
        exact ih h.tail (by omega) (Nat.le_of_succ_le_succ hle)
      · simp [Except.bind, bind, List.cons_prefix_cons, heq]

/-- Inside the window the loops answer as on a list that ends there. -/
theorem rangeFrom_answers_iff (hne : substring ≠ []) {occurs : Prop} (hshows : Shows sb i window)
    (htotal : total = i + window.length + behind.length)
    (hend : endItermediary + substring.length = i + window.length) :
    Answers (rangeFrom sb total substring endItermediary i) occurs ↔
      Answers (scanAtBack substring none window) occurs ∧
        (behind = [] ∨ ∀ view, Stop (backAgain substring.length) substring window view →
          view.length ≤ substring.length → ¬ view <+: substring) := by
  induction hn : window.length using Nat.strong_induction_on generalizing window i with
  | _ n ih =>
    subst hn
    rw [rangeFrom]
    by_cases hlong : substring.length < window.length
    · rw [if_pos (by omega), compareAt_eq hshows, scanAtBack_more hne hlong]
      cases hafter : afterMismatch window substring with
      | none =>
        have hwhole : substring <+: window := by
          rcases afterMismatch_none_iff.mp hafter with hfront | hfront
          · have hle := hfront.length_le
            omega
          · exact hfront
        simp only [Except.bind, bind, if_pos hwhole, if_true, stop_iff_of_none hafter]
        refine (and_iff_left (.inr ?_)).symm
        rintro view rfl hle
        omega
      | some after =>
        have hlt := (afterMismatch_length hafter).1
        have hagain : backAgain substring.length window.length after.length := hlong
        have hdrop := hshows.drop (window.length - after.length)
        rw [← List.suffix_iff_eq_drop.mp (afterMismatch_suffix hafter)] at hdrop
        have hindex : i + (window.length - 1 - after.length) + 1 =
            i + (window.length - after.length) := by
          omega
        simp only [Except.bind, bind, Bool.false_eq_true, if_false, hindex]
        rw [ih _ hlt hdrop (by omega) (by omega) rfl]
        refine and_congr_right fun _ => or_congr_right ?_
        constructor
        · intro h view hstop hle
          rcases (stop_iff_of_some hafter hagain).mp hstop with rfl | hnext
          · omega
          · exact h view hnext hle
        · intro h view hstop hle
          exact h view ((stop_iff_of_some hafter hagain).mpr (.inr hstop)) hle
    · have hstops : ∀ view, Stop (backAgain substring.length) substring window view ↔
          view = window := by
        intro view
        cases hafter : afterMismatch window substring with
        | none => exact stop_iff_of_none hafter
        | some after => exact stop_iff_of_not hafter hlong
      rw [if_neg (by omega), compareToEnd_eq hshows htotal (by omega),
        scanAtBack_rest (by omega)]
      simp only [hstops, forall_eq]
      by_cases hfront : window <+: substring
      · by_cases hnil : behind = []
        · simp [hfront, hnil]
        · have hle : window.length ≤ substring.length := hfront.length_le
          simp [hfront, hnil, hle, Answers]
      · simp [hfront]

theorem rangeContains_answers_iff (hne : substring ≠ []) (hshows : Shows sb i window)
    (htotal : total = i + window.length + behind.length) :
    Answers (rangeContains sb total i window.length substring) (substring <:+: window) ↔
      (substring.length ≤ window.length → ContainsInside substring window behind) := by
  rw [rangeContains, answers_guard_iff List.IsInfix.length_le]
  refine imp_congr_right fun hle => ?_
  rw [rangeFrom_answers_iff hne hshows htotal (by omega),
    answers_scanAtBack_iff hne]
  exact ⟨fun h => ⟨h.1, h.2⟩, fun h => ⟨h.exact, h.inside⟩⟩

end Range

/-! ### The whole text -/

/-- The call returns `b`, and does so without the characters outside the window, too. -/
def ReturnsInside {β : Type} (call : Indexer → Except Fault β) (text : Str) (start length : ℕ)
    (b : β) : Prop :=
  call (indexer text) = .ok b ∧ call (within start length (indexer text)) = .ok b

theorem returnsInside_iff {β : Type} {call : Indexer → Except Fault β} {text : Str}
    {start length : ℕ} {b : β}
    (hbelow : Below outside (call (within start length (indexer text))) (call (indexer text))) :
    ReturnsInside call text start length b ↔
      call (within start length (indexer text)) = .ok b := by
  refine ⟨And.right, fun h => ⟨?_, h⟩⟩
  rcases hbelow with hout | hsame
  · rw [hout] at h
    cases h
  · rw [← hsame, h]

/-- `IndexAfter` finds the first occurrence in the window and looks at nothing else. -/
def IndexAfterExact (front window behind substring : Str) : Prop :=
  ∃ index, ReturnsInside (fun sb => indexAfter sb front.length window.length substring)
      (front ++ window ++ behind) front.length window.length index ∧
    IsIndexAfter front.length substring window index

/-- `RangeContains` tells whether there is an occurrence in the window and looks at nothing else. -/
def RangeContainsExact (front window behind substring : Str) : Prop :=
  ∃ found, ReturnsInside
      (fun sb => rangeContains sb (front ++ window ++ behind).length front.length window.length
        substring) (front ++ window ++ behind) front.length window.length found ∧
    (found = true ↔ substring <:+: window)

/-- Both searches are right just under their conditions. -/
theorem stringBuilder_iff (front window behind : Str) {substring : Str} (hne : substring ≠ []) :
    (IndexAfterExact front window behind substring ↔ FindsFirst substring window) ∧
      (RangeContainsExact front window behind substring ↔
        (substring.length ≤ window.length → ContainsInside substring window behind)) := by
  have hshows := within_shows front window behind
  have hbelow := within_below front.length window.length (indexer (front ++ window ++ behind))
  constructor
  · rw [← indexAfter_exact_iff hne hshows]
    refine exists_congr fun index => and_congr_left fun _ => ?_
    exact returnsInside_iff (indexAfter_below hbelow _ _ _)
  · have htotal : (front ++ window ++ behind).length =
        front.length + window.length + behind.length := by
      rw [List.length_append, List.length_append]
    rw [← rangeContains_answers_iff hne hshows htotal]
    refine exists_congr fun found => and_congr_left fun _ => ?_
    exact returnsInside_iff (rangeContains_below hbelow _ _ _ _)

theorem stringBuilder_iff_ab :
    ascii "ab" ≠ [] ∧
      (IndexAfterExact (ascii "x") (ascii "yaxb") (ascii "z") (ascii "ab") ↔
        FindsFirst (ascii "ab") (ascii "yaxb")) :=
  ⟨by decide, (stringBuilder_iff (ascii "x") (ascii "yaxb") (ascii "z") (by decide)).1⟩

/-- The index behind `ab` in `xabx` is too great by one, and the comparison at the end of the window
`xxab` goes on with the `y` behind it. -/
theorem stringBuilder_not_exact :
    ¬ IndexAfterExact [] (ascii "xabx") [] (ascii "ab") ∧
      ¬ RangeContainsExact [] (ascii "xxab") (ascii "yy") (ascii "ab") := by
  constructor
  · rintro ⟨index, ⟨hindex, -⟩, hright, -⟩
    have hcall : indexAfter (indexer (ascii "xabx")) 0 4 (ascii "ab") = .ok 4 := by
      rw [indexAfter, if_neg (by decide), searchFrom, if_pos (by decide)]
      change searchFrom (indexer (ascii "xabx")) (ascii "ab") 2 1 = .ok 4
      rw [searchFrom, if_pos (by decide)]
      rfl
    have hat : FirstAt (ascii "ab") (ascii "xabx") (ascii "x") (ascii "x") := ⟨by decide, by decide⟩
    have hplace := hright _ _ hat
    cases hcall.symm.trans hindex
    exact absurd hplace (by decide)
  · rintro ⟨found, ⟨hfound, -⟩, -⟩
    have hcall : rangeContains (indexer (ascii "xxabyy")) 6 0 4 (ascii "ab") =
        .error (.raised .indexOutOfRange) := by
      rw [rangeContains, if_neg (by decide), rangeFrom, if_pos (by decide)]
      change rangeFrom (indexer (ascii "xxabyy")) 6 (ascii "ab") 2 1 = _
      rw [rangeFrom, if_pos (by decide)]
      change rangeFrom (indexer (ascii "xxabyy")) 6 (ascii "ab") 2 2 = _
      rw [rangeFrom, if_neg (by decide)]
      rfl
    cases hcall.symm.trans hfound

end DecodingProxy.Buffers.StringBuilders
