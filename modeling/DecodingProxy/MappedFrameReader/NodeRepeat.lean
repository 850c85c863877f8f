import DecodingProxy.Lib.Runs
import DecodingProxy.Lib.Splits
import DecodingProxy.MappedFrameReader.Reader
import DecodingProxy.Runtime.Dictionary
import Mathlib

/-!
# `NodeRepeat` with a separator

One loop looks for the separator and for the bytes that enclose all elements. Behind a separator
the index is put on the byte after it, and the loop then moves it on by one more: the first byte
of the next element is never compared with anything.
-/

namespace DecodingProxy.MappedFrameReader
open DecodingProxy.Runs DecodingProxy.Runtime DecodingProxy.Splits

/-- An element of a vector, a `NodeResult` outside of the chain. -/
structure VectorItem where
  offsetLocal : ℕ := 0
  path : String := ""
  value : List UInt8 := []
  valueStripped : List UInt8 := []
  deriving DecidableEq, Repr

/-- What is under a path in `TableOfResults`. -/
structure TableResult where
  index : ℕ
  path : String
  nodeResult : VectorItem
  deriving DecidableEq, Repr

abbrev TableOfResults := Dictionary String TableResult

def finalPath (vectorCounter : ℕ) (path : String) : String := s!"{path}[{vectorCounter}]"

/-- The element with its path, and the table with the element. -/
def TableOfResults.addDynamic (vectorCounter : ℕ) (path : String) (nodeResult : VectorItem)
    (t : TableOfResults) : Except Fault (VectorItem × TableOfResults) := do
  let finalPath := finalPath vectorCounter path
  let nodeResult := { nodeResult with path := finalPath }
  let t ← Dictionary.add t finalPath { index := vectorCounter, path := finalPath, nodeResult }
  .ok (nodeResult, t)

/-- The bytes from `offset` to `indexEnd`, of which the last `mark` are not the element's own. -/
def VectorItem.setResults (mem : List UInt8) (offset indexEnd mark : ℕ) (item : VectorItem) :
    VectorItem :=
  let memResult := (mem.drop offset).take (indexEnd - offset)
  { item with value := memResult, valueStripped := memResult.take (memResult.length - mark) }

structure NodeRepeat where
  path : String
  separator : List UInt8
  enclose : List UInt8
  value : List UInt8 := []
  valueStripped : List UInt8 := []
  lengthConsumed : ℤ := 0
  results : List VectorItem := []
  deriving DecidableEq, Repr

/-- The tasks a node returns. -/
inductive Status
  | taskSucceed
  | taskNotEnough
  | taskNotFounded
  deriving DecidableEq, Repr

/-- The table and the elements after the loop, and the end of the enclosing bytes. -/
structure Separated where
  tableOfResults : TableOfResults
  results : List VectorItem
  indexEnd : Option ℕ

namespace NodeRepeat

/-- The loop over `i`; `left` of its runs are possible. -/
def whileCondition (n : NodeRepeat) (mem : List UInt8) :
    (left i offset vectorCounter : ℕ) → VectorItem → TableOfResults → List VectorItem →
      Except Fault Separated
  | 0, _, _, _, _, tableOfResults, results => .ok { tableOfResults, results, indexEnd := none }
  | left + 1, i, offset, vectorCounter, nodeResult, tableOfResults, results =>
    if mem.length ≤ i then .ok { tableOfResults, results, indexEnd := none }
    else if n.enclose.isPrefixOf (mem.drop i) then do
      let indexEnd := i + n.enclose.length
      let nodeResult := nodeResult.setResults mem offset indexEnd n.enclose.length
      let added ← tableOfResults.addDynamic vectorCounter n.path nodeResult
      .ok { tableOfResults := added.2, results := results ++ [added.1], indexEnd }
    else if n.separator.isPrefixOf (mem.drop i) then do
      let indexEnd := i + n.separator.length
      let nodeResult := nodeResult.setResults mem offset indexEnd n.separator.length
      let added ← tableOfResults.addDynamic vectorCounter n.path nodeResult
      -- `i = indexEnd`, and the loop adds one
      n.whileCondition mem left (indexEnd + 1) indexEnd (vectorCounter + 1)
        { offsetLocal := indexEnd } added.2 (results ++ [added.1])
    else n.whileCondition mem left (i + 1) offset vectorCounter nodeResult tableOfResults results

/-- What the loop leaves in the node; only the enclosing bytes give it a result. -/
def setSeparated (mem : List UInt8) (r : Separated) (n : NodeRepeat) : NodeRepeat :=
  match r.indexEnd with
  | some indexEnd =>
    { n with
      value := mem.take indexEnd, valueStripped := mem.take indexEnd,
      lengthConsumed := indexEnd, results := r.results }
  | none => { n with results := r.results }

end NodeRepeat

/-- The node, its table and the position of the context after a call, with the task. -/
structure NodeRun where
  task : Status
  node : NodeRepeat
  tableOfResults : TableOfResults
  position : ℤ

/-- `ExecuteAsync` of a node with a separator; `Advance` is called in every case but one. -/
def NodeRepeat.executeAsync (debug : Bool) (mem : List UInt8) (position : ℤ)
    (tableOfResults : TableOfResults) (n : NodeRepeat) : Except Fault NodeRun :=
  if debug ∧ mem.length < 500 then .error (.raised .argumentOutOfRange)
  else if mem.length < n.enclose.length then
    .ok { task := .taskNotEnough, node := n, tableOfResults, position }
  else do
    let r ← n.whileCondition mem mem.length 0 0 0 {} tableOfResults n.results
    let n := n.setSeparated mem r
    .ok { task := .taskSucceed, node := n, tableOfResults := r.tableOfResults,
          position := position + n.lengthConsumed }

/-! ### What the loop does next -/

namespace NodeRepeat

variable {n : NodeRepeat} {mem : List UInt8} {i j left offset vectorCounter : ℕ}
  {nodeResult : VectorItem} {tableOfResults : TableOfResults} {results : List VectorItem}

/-- The last element, when the enclosing bytes start at `j`. -/
def closeAt (n : NodeRepeat) (mem : List UInt8) (j offset vectorCounter : ℕ)
    (nodeResult : VectorItem) (tableOfResults : TableOfResults) (results : List VectorItem) :
    Except Fault Separated := do
  let added ← tableOfResults.addDynamic vectorCounter n.path
    (nodeResult.setResults mem offset (j + n.enclose.length) n.enclose.length)
  .ok { tableOfResults := added.2, results := results ++ [added.1],
        indexEnd := some (j + n.enclose.length) }

/-- An element, when a separator starts at `j`, and the rest of the loop. -/
def separateAt (n : NodeRepeat) (mem : List UInt8) (left j offset vectorCounter : ℕ)
    (nodeResult : VectorItem) (tableOfResults : TableOfResults) (results : List VectorItem) :
    Except Fault Separated := do
  let added ← tableOfResults.addDynamic vectorCounter n.path
    (nodeResult.setResults mem offset (j + n.separator.length) n.separator.length)
  n.whileCondition mem left (j + n.separator.length + 1) (j + n.separator.length)
    (vectorCounter + 1) { offsetLocal := j + n.separator.length } added.2 (results ++ [added.1])

/-- Neither the enclosing bytes nor the separator start at `j`. -/
def Passed (n : NodeRepeat) (mem : List UInt8) (j : ℕ) : Prop :=
  ¬ n.enclose <+: mem.drop j ∧ ¬ n.separator <+: mem.drop j

/-- The loop goes on to the first index at which one of the two starts. -/
inductive Next (n : NodeRepeat) (mem : List UInt8) (i offset vectorCounter : ℕ)
    (nodeResult : VectorItem) (tableOfResults : TableOfResults) (results : List VectorItem) :
    Except Fault Separated → Prop
  | none : (∀ j, i ≤ j → j < mem.length → n.Passed mem j) →
    Next n mem i offset vectorCounter nodeResult tableOfResults results
      (.ok { tableOfResults, results, indexEnd := none })
  | enclose {j : ℕ} : i ≤ j → (∀ m, i ≤ m → m < j → n.Passed mem m) → n.enclose <+: mem.drop j →
    Next n mem i offset vectorCounter nodeResult tableOfResults results
      (n.closeAt mem j offset vectorCounter nodeResult tableOfResults results)
  | separator {j left : ℕ} : i ≤ j → (∀ m, i ≤ m → m < j → n.Passed mem m) →
    ¬ n.enclose <+: mem.drop j → n.separator <+: mem.drop j →
    mem.length ≤ left + (j + n.separator.length + 1) →
    Next n mem i offset vectorCounter nodeResult tableOfResults results
      (n.separateAt mem left j offset vectorCounter nodeResult tableOfResults results)

theorem Next.of_succ {r : Except Fault Separated} (hi : n.Passed mem i)
    (h : Next n mem (i + 1) offset vectorCounter nodeResult tableOfResults results r) :
    Next n mem i offset vectorCounter nodeResult tableOfResults results r := by
  have hpassed : ∀ m, i ≤ m → (i + 1 ≤ m → n.Passed mem m) → n.Passed mem m := by
    intro m hm hlater
    rcases Nat.eq_or_lt_of_le hm with rfl | hlt
    · exact hi
    · exact hlater hlt
  cases h with
  | none hnone =>
    apply Next.none
    intro j hij hj
    exact hpassed j hij fun hlater => hnone j hlater hj
  | enclose hij hbefore hhere =>
    apply Next.enclose (Nat.le_of_succ_le hij) _ hhere
    intro m him hm
    exact hpassed m him fun hlater => hbefore m hlater hm
  | separator hij hbefore hnot hhere hleft =>
    apply Next.separator (Nat.le_of_succ_le hij) _ hnot hhere hleft
    intro m him hm
    exact hpassed m him fun hlater => hbefore m hlater hm

theorem whileCondition_next (hsep : n.separator ≠ []) (hleft : mem.length ≤ left + i) :
    Next n mem i offset vectorCounter nodeResult tableOfResults results
      (n.whileCondition mem left i offset vectorCounter nodeResult tableOfResults results) := by
  induction left generalizing i with
  | zero =>
    apply Next.none
    intro j hij hj
    omega
  | succ left ih =>
    have hpos := List.length_pos_of_ne_nil hsep
    unfold whileCondition
    simp only [List.isPrefixOf_iff_prefix]
    split_ifs with hend henclose hseparator
    · apply Next.none
      intro j hij hj
      omega
    · apply Next.enclose le_rfl _ henclose
      intro m him hm
      omega
    · apply Next.separator le_rfl _ henclose hseparator
      · omega
      · intro m him hm
        omega
    · exact (ih (by omega)).of_succ ⟨henclose, hseparator⟩

end NodeRepeat

theorem finalPath_inj {j k : ℕ} {path : String} (h : finalPath j path = finalPath k path) :
    j = k := by
  apply Nat.repr_injective
  simpa [finalPath, String.ext_iff] using h

theorem TableOfResults.addDynamic_ok {t : TableOfResults} {k : ℕ} {path : String}
    {item : VectorItem} {added : VectorItem × TableOfResults}
    (h : t.addDynamic k path item = .ok added) :
    finalPath k path ∉ t ∧ added.1 = { item with path := finalPath k path } ∧
      ∀ key, key ∈ added.2 ↔ key = finalPath k path ∨ key ∈ t := by
  obtain ⟨t', ht, h⟩ := do_ok_iff.mp h
  cases h
  refine ⟨?_, rfl, fun key => Dictionary.mem_add ht⟩
  intro hmem
  unfold Dictionary.add at ht
  rw [if_pos hmem] at ht
  cases ht

theorem TableOfResults.exists_addDynamic {t : TableOfResults} {k : ℕ} {path : String}
    (h : finalPath k path ∉ t) (item : VectorItem) :
    ∃ added, t.addDynamic k path item = .ok added := by
  rcases Dictionary.add_cases t (finalPath k path)
    { index := k, path := finalPath k path,
      nodeResult := { item with path := finalPath k path } } with ⟨hmem, -⟩ | ⟨t', -, ht⟩
  · exact absurd hmem h
  · exact ⟨_, do_ok_iff.mpr ⟨t', ht, rfl⟩⟩

theorem VectorItem.setResults_eq {mem mark : List UInt8} {offset j : ℕ} (item : VectorItem)
    (hmark : mark ≠ []) (h : mark <+: (mem.drop offset).drop j) :
    item.setResults mem offset (offset + j + mark.length) mark.length =
      { item with
        value := (mem.drop offset).take j ++ mark
        valueStripped := (mem.drop offset).take j } := by
  have hpos := List.length_pos_of_ne_nil hmark
  have hlength := h.length_le
  simp only [List.length_drop] at hlength
  have hwhole : offset + j + mark.length - offset = j + mark.length := by omega
  have htake : (mem.drop offset).take (j + mark.length) = (mem.drop offset).take j ++ mark := by
    rw [List.take_add, ← List.prefix_iff_eq_take.mp h]
  have hpiece : ((mem.drop offset).take j).length = j := by
    rw [List.length_take, List.length_drop]
    omega
  unfold VectorItem.setResults
  rw [hwhole, htake]
  simp only [List.length_append, Nat.add_sub_cancel, List.take_left]

theorem TableOfResults.addDynamic_setResults {t : TableOfResults} {k offset j : ℕ} {path : String}
    {item : VectorItem} {mem mark : List UInt8} {added : VectorItem × TableOfResults}
    (hmark : mark ≠ []) (h : mark <+: (mem.drop offset).drop j)
    (hadded : t.addDynamic k path
      (item.setResults mem offset (offset + j + mark.length) mark.length) = .ok added) :
    finalPath k path ∉ t ∧ added.1.valueStripped = (mem.drop offset).take j ∧
      added.1.value = (mem.drop offset).take j ++ mark ∧
      ∀ key, key ∈ added.2 ↔ key = finalPath k path ∨ key ∈ t := by
  obtain ⟨hnew, hitem, hkeys⟩ := addDynamic_ok hadded
  rw [item.setResults_eq hmark h] at hitem
  rw [hitem]
  exact ⟨hnew, rfl, rfl, hkeys⟩

/-! ### Pieces the loop finds -/

/-- From `skip` bytes behind the start of the first piece the loop comes to the end of each. -/
def Passes (separator behind : List UInt8) : ℕ → List (List UInt8) → Prop
  | _, [] => True
  | skip, [last] => skip ≤ last.length ∧
    ∀ j < last.length, skip ≤ j → ¬ separator <+: (last ++ behind).drop j
  | skip, piece :: pieces => skip ≤ piece.length ∧ Passes separator behind 1 pieces

theorem passes_cons {separator behind piece : List UInt8} {pieces : List (List UInt8)}
    (h : pieces ≠ []) (skip : ℕ) :
    Passes separator behind skip (piece :: pieces) ↔
      skip ≤ piece.length ∧ Passes separator behind 1 pieces := by
  cases pieces with
  | nil => exact absurd rfl h
  | cons second pieces => exact Iff.rfl

namespace NodeRepeat

variable {n : NodeRepeat} {mem : List UInt8} {i j k left offset skip : ℕ}
  {nodeResult : VectorItem} {tableOfResults : TableOfResults} {results : List VectorItem}
  {body rest piece next : List UInt8} {pieces : List (List UInt8)}

/-- What the loop adds to the elements for the pieces. -/
structure Found (n : NodeRepeat) (results : List VectorItem) (pieces : List (List UInt8))
    (indexEnd : ℕ) (r : Separated) : Prop where
  items : ∃ items, r.results = results ++ items ∧ items.map (·.valueStripped) = pieces ∧
    items.map (·.value) = marked n.separator n.enclose pieces
  indexEnd : r.indexEnd = some indexEnd

theorem Next.eq_enclose {r : Except Fault Separated}
    (h : Next n mem i offset k nodeResult tableOfResults results r) (hij : i ≤ j)
    (hj : j < mem.length) (hbefore : ∀ m, i ≤ m → m < j → n.Passed mem m)
    (hhere : n.enclose <+: mem.drop j) :
    r = n.closeAt mem j offset k nodeResult tableOfResults results := by
  cases h with
  | none hnone => exact absurd hhere (hnone j hij hj).1
  | @enclose m him hnone henclose =>
    rcases Nat.lt_trichotomy m j with hlt | rfl | hlt
    · exact absurd henclose (hbefore m him hlt).1
    · rfl
    · exact absurd hhere (hnone j hij hlt).1
  | @separator m left him hnone hnot hseparator hleft =>
    rcases Nat.lt_trichotomy m j with hlt | rfl | hlt
    · exact absurd hseparator (hbefore m him hlt).2
    · exact absurd hhere hnot
    · exact absurd hhere (hnone j hij hlt).1

theorem Next.eq_separator {r : Except Fault Separated}
    (h : Next n mem i offset k nodeResult tableOfResults results r) (hij : i ≤ j)
    (hj : j < mem.length) (hbefore : ∀ m, i ≤ m → m < j → n.Passed mem m)
    (hnot : ¬ n.enclose <+: mem.drop j) (hhere : n.separator <+: mem.drop j) :
    ∃ left, mem.length ≤ left + (j + n.separator.length + 1) ∧
      r = n.separateAt mem left j offset k nodeResult tableOfResults results := by
  cases h with
  | none hnone => exact absurd hhere (hnone j hij hj).2
  | @enclose m him hnone henclose =>
    rcases Nat.lt_trichotomy m j with hlt | rfl | hlt
    · exact absurd henclose (hbefore m him hlt).1
    · exact absurd henclose hnot
    · exact absurd hhere (hnone j hij hlt).2
  | @separator m left him hnone hnotHere hseparator hleft =>
    rcases Nat.lt_trichotomy m j with hlt | rfl | hlt
    · exact absurd hseparator (hbefore m him hlt).2
    · exact ⟨left, hleft, rfl⟩
    · exact absurd hhere (hnone j hij hlt).2

theorem starts_lt {mark : List UInt8} (hmark : mark ≠ []) (h : mark <+: mem.drop j) :
    j < mem.length := by
  have hpos := List.length_pos_of_ne_nil hmark
  have hle := h.length_le
  rw [List.length_drop] at hle
  omega

theorem new_succ {added : VectorItem × TableOfResults} {path : String} {count : ℕ}
    (hnew : ∀ j < count + 1, finalPath (k + j) path ∉ tableOfResults)
    (hkeys : ∀ key, key ∈ added.2 ↔ key = finalPath k path ∨ key ∈ tableOfResults) :
    ∀ j < count, finalPath (k + 1 + j) path ∉ added.2 := by
  intro j hj hmem
  rw [Nat.add_assoc, Nat.add_comm 1 j] at hmem
  rcases (hkeys _).mp hmem with heq | hmem
  · have hk := finalPath_inj heq
    omega
  · exact hnew (j + 1) (Nat.succ_lt_succ hj) hmem

theorem closeAt_found (hencl : n.enclose ≠ [])
    (hfirst : FirstAt n.enclose (mem.drop offset) piece rest)
    (hnew : finalPath k n.path ∉ tableOfResults) :
    ∃ r, n.closeAt mem (offset + piece.length) offset k nodeResult tableOfResults results = .ok r ∧
      Found n results [piece] (offset + piece.length + n.enclose.length) r := by
  have hhere : n.enclose <+: (mem.drop offset).drop piece.length := hfirst.prefix_drop
  have hpiece : (mem.drop offset).take piece.length = piece := hfirst.take_eq
  obtain ⟨added, hadded⟩ := TableOfResults.exists_addDynamic hnew
    (nodeResult.setResults mem offset (offset + piece.length + n.enclose.length) n.enclose.length)
  obtain ⟨-, hstripped, hvalue, -⟩ := TableOfResults.addDynamic_setResults hencl hhere hadded
  refine ⟨_, do_ok_iff.mpr ⟨added, hadded, rfl⟩, ⟨[added.1], rfl, ?_, ?_⟩, rfl⟩
  · rw [List.map_singleton, hstripped, hpiece]
  · rw [List.map_singleton, hvalue, hpiece, marked]

/-- The loop comes to the enclosing bytes behind the last piece. -/
theorem whileCondition_last (hsep : n.separator ≠ []) (hencl : n.enclose ≠ [])
    (hfirst : FirstAt n.enclose (mem.drop offset) piece rest)
    (hleft : mem.length ≤ left + (offset + skip))
    (hpasses : Passes n.separator (n.enclose ++ rest) skip [piece]) :
    n.whileCondition mem left (offset + skip) offset k nodeResult tableOfResults results =
      n.closeAt mem (offset + piece.length) offset k nodeResult tableOfResults results := by
  obtain ⟨hskip, hseparator⟩ := hpasses
  have hhere := hfirst.prefix_drop
  rw [List.drop_drop] at hhere
  apply (whileCondition_next hsep hleft).eq_enclose (by omega) (starts_lt hencl hhere) _ hhere
  intro m him hm
  obtain ⟨m, rfl⟩ : ∃ j, m = offset + j := ⟨m - offset, by omega⟩
  unfold Passed
  rw [← List.drop_drop]
  refine ⟨hfirst.first m (by omega), ?_⟩
  rw [hfirst.eq, List.append_assoc]
  exact hseparator m (by omega) (by omega)

variable (k nodeResult tableOfResults results) in
/-- The loop comes to the separator behind any other piece. -/
theorem whileCondition_piece (hsep : n.separator ≠ [])
    (hfirst : FirstAt n.enclose (mem.drop offset) body rest)
    (hpiece : FirstAt n.separator body piece next)
    (hleft : mem.length ≤ left + (offset + skip)) (hskip : skip ≤ piece.length) :
    ∃ left', mem.length ≤ left' + (offset + piece.length + n.separator.length + 1) ∧
      n.whileCondition mem left (offset + skip) offset k nodeResult tableOfResults results =
        n.separateAt mem left' (offset + piece.length) offset k nodeResult tableOfResults
          results := by
  have hpos := List.length_pos_of_ne_nil hsep
  have hlength := hpiece.length_eq
  have hhere : n.separator <+: (mem.drop offset).drop piece.length := by
    rw [hfirst.eq, List.append_assoc, prefix_drop_append_iff (by omega)]
    exact hpiece.prefix_drop
  have hnot : ¬ n.enclose <+: (mem.drop offset).drop piece.length :=
    hfirst.first piece.length (by omega)
  rw [List.drop_drop] at hhere hnot
  apply (whileCondition_next hsep hleft).eq_separator (by omega) (starts_lt hsep hhere) _ hnot hhere
  intro m him hm
  obtain ⟨m, rfl⟩ : ∃ j, m = offset + j := ⟨m - offset, by omega⟩
  unfold Passed
  rw [← List.drop_drop]
  refine ⟨hfirst.first m (by omega), ?_⟩
  rw [hfirst.eq, List.append_assoc, prefix_drop_append_iff (by omega)]
  exact hpiece.first m (by omega)

/-- Where the loop passes the pieces, it makes an element of each. -/
theorem whileCondition_found (hsep : n.separator ≠ []) (hencl : n.enclose ≠ [])
    (h : SplitsInto n.separator body pieces)
    (hfirst : FirstAt n.enclose (mem.drop offset) body rest)
    (hleft : mem.length ≤ left + (offset + skip))
    (hpasses : Passes n.separator (n.enclose ++ rest) skip pieces)
    (hnew : ∀ j < pieces.length, finalPath (k + j) n.path ∉ tableOfResults) :
    ∃ r, n.whileCondition mem left (offset + skip) offset k nodeResult tableOfResults results =
        .ok r ∧
      Found n results pieces (offset + body.length + n.enclose.length) r := by
  induction h generalizing offset skip left k nodeResult tableOfResults results with
  | @last piece hnot =>
    rw [whileCondition_last hsep hencl hfirst hleft hpasses]
    exact closeAt_found hencl hfirst (hnew 0 (Nat.zero_lt_succ _))
  | @cons text piece next pieces hpiece hrest ih =>
    obtain ⟨hskip, hpasses⟩ := (passes_cons hrest.ne_nil skip).mp hpasses
    obtain ⟨left, hleft, heq⟩ := whileCondition_piece k nodeResult tableOfResults results
      hsep hfirst hpiece hleft hskip
    have hhere : n.separator <+: (mem.drop offset).drop piece.length := by
      rw [hfirst.eq, List.append_assoc, prefix_drop_append_iff hpiece.length_le]
      exact hpiece.prefix_drop
    have htake : (mem.drop offset).take piece.length = piece := by
      rw [hfirst.eq, hpiece.eq]
      simp only [List.append_assoc, List.take_left]
    obtain ⟨added, hadded⟩ := TableOfResults.exists_addDynamic (hnew 0 (Nat.zero_lt_succ _))
      (nodeResult.setResults mem offset (offset + piece.length + n.separator.length)
        n.separator.length)
    obtain ⟨-, hstripped, hvalue, hkeys⟩ :=
      TableOfResults.addDynamic_setResults hsep hhere hadded
    have hnext : FirstAt n.enclose (mem.drop (offset + piece.length + n.separator.length)) next
        rest := by
      rw [hpiece.eq] at hfirst
      have hdrop := hfirst.drop
      rw [List.drop_drop, List.length_append, ← Nat.add_assoc] at hdrop
      exact hdrop
    obtain ⟨r, hr, ⟨items, hitems, hpieces, hmarked⟩, hend⟩ :
        ∃ r, n.separateAt mem left (offset + piece.length) offset k nodeResult tableOfResults
            results = .ok r ∧
          Found n (results ++ [added.1]) pieces
            (offset + piece.length + n.separator.length + next.length + n.enclose.length) r := by
      obtain ⟨r, hr, hfound⟩ := ih hnext hleft hpasses (new_succ hnew hkeys)
      exact ⟨r, do_ok_iff.mpr ⟨added, hadded, hr⟩, hfound⟩
    refine ⟨r, ?_, ⟨added.1 :: items, ?_, ?_, ?_⟩, ?_⟩
    · rw [heq]
      exact hr
    · rw [hitems, List.append_assoc, List.singleton_append]
    · rw [List.map_cons, hstripped, htake, hpieces]
    · rw [List.map_cons, hvalue, htake, hmarked, marked_cons _ _ hrest.ne_nil]
    · rw [hend, hpiece.length_eq]
      congr 1
      omega

/-! ### Elements that are the pieces -/

theorem closeAt_ok {r : Separated} (hencl : n.enclose ≠ [])
    (hhere : n.enclose <+: (mem.drop offset).drop j)
    (hr : n.closeAt mem (offset + j) offset k nodeResult tableOfResults results = .ok r) :
    finalPath k n.path ∉ tableOfResults ∧
      ∃ item, r.results = results ++ [item] ∧ item.valueStripped = (mem.drop offset).take j := by
  obtain ⟨added, hadded, hr⟩ := do_ok_iff.mp hr
  cases hr
  obtain ⟨hnew, hstripped, -, -⟩ := TableOfResults.addDynamic_setResults hencl hhere hadded
  exact ⟨hnew, added.1, rfl, hstripped⟩

theorem whileCondition_extends {r : Separated}
    (hr : n.whileCondition mem left i offset k nodeResult tableOfResults results = .ok r) :
    ∃ items, r.results = results ++ items := by
  induction left generalizing i offset k nodeResult tableOfResults results with
  | zero =>
    cases hr
    exact ⟨[], (List.append_nil _).symm⟩
  | succ left ih =>
    unfold whileCondition at hr
    split_ifs at hr
    · cases hr
      exact ⟨[], (List.append_nil _).symm⟩
    · obtain ⟨added, -, hr⟩ := do_ok_iff.mp hr
      cases hr
      exact ⟨[added.1], rfl⟩
    · obtain ⟨added, -, hr⟩ := do_ok_iff.mp hr
      obtain ⟨items, hitems⟩ := ih hr
      exact ⟨added.1 :: items, by rw [hitems, List.append_assoc, List.singleton_append]⟩
    · exact ih hr

/-- Later elements come behind the one in front of the separator. -/
theorem separateAt_ok {r : Separated} {items : List VectorItem} (hsep : n.separator ≠ [])
    (hhere : n.separator <+: (mem.drop offset).drop j)
    (hr : n.separateAt mem left (offset + j) offset k nodeResult tableOfResults results = .ok r)
    (hitems : r.results = results ++ items) :
    ∃ added : VectorItem × TableOfResults, ∃ later,
      finalPath k n.path ∉ tableOfResults ∧
      (∀ key, key ∈ added.2 ↔ key = finalPath k n.path ∨ key ∈ tableOfResults) ∧
      added.1.valueStripped = (mem.drop offset).take j ∧ items = added.1 :: later ∧
      r.results = results ++ [added.1] ++ later ∧
      n.whileCondition mem left (offset + j + n.separator.length + 1)
        (offset + j + n.separator.length) (k + 1)
        { offsetLocal := offset + j + n.separator.length } added.2 (results ++ [added.1]) =
          .ok r := by
  obtain ⟨added, hadded, hr⟩ := do_ok_iff.mp hr
  obtain ⟨hnew, hstripped, -, hkeys⟩ := TableOfResults.addDynamic_setResults hsep hhere hadded
  obtain ⟨later, hlater⟩ := whileCondition_extends hr
  refine ⟨added, later, hnew, hkeys, hstripped, ?_, hlater, hr⟩
  rw [hitems, List.append_assoc, List.singleton_append] at hlater
  exact List.append_cancel_left hlater

theorem length_take_of_starts {text mark : List UInt8} (hmark : mark ≠ [])
    (h : mark <+: text.drop j) : (text.take j).length = j := by
  have hlt := starts_lt hmark h
  rw [List.length_take]
  omega

theorem passes_last {r : Separated} {items : List VectorItem}
    (hsep : n.separator ≠ []) (hencl : n.enclose ≠ [])
    (hfirst : FirstAt n.enclose (mem.drop offset) piece rest)
    (hleft : mem.length ≤ left + (offset + skip))
    (hr : n.whileCondition mem left (offset + skip) offset k nodeResult tableOfResults results =
      .ok r)
    (hitems : r.results = results ++ items) (hpieces : items.map (·.valueStripped) = [piece]) :
    Passes n.separator (n.enclose ++ rest) skip [piece] ∧
      ∀ j < [piece].length, finalPath (k + j) n.path ∉ tableOfResults := by
  have hnext : Next n mem (offset + skip) offset k nodeResult tableOfResults results _ :=
    whileCondition_next hsep hleft
  generalize n.whileCondition mem left (offset + skip) offset k nodeResult tableOfResults
    results = outcome at hnext hr
  cases hnext with
  | none hnone =>
    cases hr
    obtain rfl : items = [] := List.append_right_eq_self.mp hitems.symm
    cases hpieces
  | @enclose m him hnone hhere =>
    obtain ⟨m, rfl⟩ : ∃ j, m = offset + j := ⟨m - offset, by omega⟩
    rw [← List.drop_drop] at hhere
    obtain ⟨hnew, item, hitem, hstripped⟩ := closeAt_ok hencl hhere hr
    obtain rfl : items = [item] := List.append_cancel_left (hitems.symm.trans hitem)
    obtain rfl : (mem.drop offset).take m = piece := by
      simpa [hstripped] using hpieces
    have hlength := length_take_of_starts hencl hhere
    refine ⟨⟨by omega, ?_⟩, ?_⟩
    · intro j hj hskip hprefix
      apply (hnone (offset + j) (by omega) (by omega)).2
      rw [← List.drop_drop, hfirst.eq, List.append_assoc]
      exact hprefix
    · intro j hj
      obtain rfl : j = 0 := by simpa using hj
      exact hnew
  | @separator m left him hnone hnot hhere hleft =>
    obtain ⟨m, rfl⟩ : ∃ j, m = offset + j := ⟨m - offset, by omega⟩
    rw [← List.drop_drop] at hhere hnot
    obtain ⟨added, later, -, -, hstripped, rfl, -, -⟩ := separateAt_ok hsep hhere hr hitems
    obtain ⟨rfl, -⟩ : (mem.drop offset).take m = piece ∧ later = [] := by
      simpa [hstripped] using hpieces
    have hclose := hfirst.prefix_drop
    rw [length_take_of_starts hsep hhere] at hclose
    exact absurd hclose hnot

/-- Where the elements are the pieces, the loop passes the pieces. -/
theorem passes_of_whileCondition {r : Separated} {items : List VectorItem}
    (hsep : n.separator ≠ []) (hencl : n.enclose ≠ []) (h : SplitsInto n.separator body pieces)
    (hfirst : FirstAt n.enclose (mem.drop offset) body rest)
    (hleft : mem.length ≤ left + (offset + skip))
    (hr : n.whileCondition mem left (offset + skip) offset k nodeResult tableOfResults results =
      .ok r)
    (hitems : r.results = results ++ items) (hpieces : items.map (·.valueStripped) = pieces) :
    Passes n.separator (n.enclose ++ rest) skip pieces ∧
      ∀ j < pieces.length, finalPath (k + j) n.path ∉ tableOfResults := by
  induction h generalizing offset skip left k nodeResult tableOfResults results items with
  | last => exact passes_last hsep hencl hfirst hleft hr hitems hpieces
  | @cons text piece next pieces hpiece hrest ih =>
    have hnext : Next n mem (offset + skip) offset k nodeResult tableOfResults results _ :=
      whileCondition_next hsep hleft
    generalize n.whileCondition mem left (offset + skip) offset k nodeResult tableOfResults
      results = outcome at hnext hr
    cases hnext with
    | none hnone =>
      cases hr
      obtain rfl : items = [] := List.append_right_eq_self.mp hitems.symm
      cases hpieces
    | @enclose m him hnone hhere =>
      obtain ⟨m, rfl⟩ : ∃ j, m = offset + j := ⟨m - offset, by omega⟩
      rw [← List.drop_drop] at hhere
      obtain ⟨-, item, hitem, -⟩ := closeAt_ok hencl hhere hr
      obtain rfl : items = [item] := List.append_cancel_left (hitems.symm.trans hitem)
      rw [List.map_singleton, List.cons.injEq] at hpieces
      exact absurd hpieces.2.symm hrest.ne_nil
    | @separator m left him hnone hnot hhere hleft =>
      obtain ⟨m, rfl⟩ : ∃ j, m = offset + j := ⟨m - offset, by omega⟩
      rw [← List.drop_drop] at hhere
      obtain ⟨added, later, hnew, hkeys, hstripped, rfl, hlater, hr⟩ :=
        separateAt_ok hsep hhere hr hitems
      rw [List.map_cons, List.cons.injEq, hstripped] at hpieces
      obtain ⟨rfl, hpieces⟩ := hpieces
      have hlength := length_take_of_starts hsep hhere
      rw [hpiece.eq] at hfirst
      have hclose := hfirst.drop
      rw [List.drop_drop, List.length_append, hlength, ← Nat.add_assoc] at hclose
      obtain ⟨hpasses, hlast⟩ := ih hclose hleft hr hlater hpieces
      refine ⟨(passes_cons hrest.ne_nil skip).mpr ⟨by omega, hpasses⟩, ?_⟩
      intro j hj
      cases j with
      | zero => exact hnew
      | succ j =>
        intro hmem
        apply hlast j (Nat.lt_of_succ_lt_succ hj)
        rw [Nat.add_assoc, Nat.add_comm 1 j]
        exact (hkeys _).mpr (.inr hmem)

/-! ### The exact split -/

/-- The elements are the pieces of the body, and the body is read with what encloses it. -/
structure SplitOff (position : ℤ) (body enclose : List UInt8) (pieces : List (List UInt8))
    (run : NodeRun) : Prop where
  task : run.task = .taskSucceed
  items : run.node.results.map (·.valueStripped) = pieces
  raw : (run.node.results.map (·.value)).flatten = body ++ enclose
  lengthConsumed : run.node.lengthConsumed = (body ++ enclose).length
  position : run.position = position + (body ++ enclose).length

/-- Without the enclosing bytes the task is one of those that report it. -/
def ExactSplit (reported : Status → Prop) (debug : Bool) (mem : List UInt8) (position : ℤ)
    (tableOfResults : TableOfResults) (n : NodeRepeat) : Prop :=
  ∃ run, n.executeAsync debug mem position tableOfResults = .ok run ∧
    (∀ body rest pieces, FirstAt n.enclose mem body rest → SplitsInto n.separator body pieces →
      SplitOff position body n.enclose pieces run) ∧
    (¬ n.enclose <:+: mem →
      reported run.task ∧ ∀ item ∈ run.node.results, item.value <:+: mem)

/-- The loop comes to the enclosing bytes over all pieces, whose paths are not taken. -/
def SplitsCleanly (debug : Bool) (mem : List UInt8) (tableOfResults : TableOfResults)
    (n : NodeRepeat) : Prop :=
  (debug → 500 ≤ mem.length) ∧ ∃ body rest pieces, FirstAt n.enclose mem body rest ∧
    SplitsInto n.separator body pieces ∧ Passes n.separator (n.enclose ++ rest) 0 pieces ∧
    ∀ k < pieces.length, finalPath k n.path ∉ tableOfResults

/-- A node that has not been executed. -/
def new (path : String) (separator enclose : List UInt8) : NodeRepeat :=
  { path, separator, enclose }

variable {debug : Bool} {position : ℤ} {reported : Status → Prop}

theorem executeAsync_ok {run : NodeRun}
    (h : n.executeAsync debug mem position tableOfResults = .ok run) :
    (debug → 500 ≤ mem.length) ∧
      (mem.length < n.enclose.length ∧
          run = { task := .taskNotEnough, node := n, tableOfResults, position } ∨
        n.enclose.length ≤ mem.length ∧ run.task = .taskSucceed ∧ ∃ r,
          n.whileCondition mem mem.length 0 0 0 {} tableOfResults n.results = .ok r ∧
          run.node = n.setSeparated mem r ∧
          run.position = position + (n.setSeparated mem r).lengthConsumed) := by
  unfold executeAsync at h
  split_ifs at h with hdebug hshort
  · cases h
    exact ⟨fun hd => Nat.le_of_not_lt fun hlt => hdebug ⟨hd, hlt⟩, .inl ⟨hshort, rfl⟩⟩
  · obtain ⟨r, hr, h⟩ := do_ok_iff.mp h
    cases h
    exact ⟨fun hd => Nat.le_of_not_lt fun hlt => hdebug ⟨hd, hlt⟩,
      .inr ⟨Nat.le_of_not_lt hshort, rfl, r, hr, rfl, rfl⟩⟩

theorem setSeparated_results (r : Separated) : (n.setSeparated mem r).results = r.results := by
  unfold setSeparated
  split
  · rfl
  · rfl

theorem executeAsync_eq {r : Separated} (hdebug : debug → 500 ≤ mem.length)
    (hlength : n.enclose.length ≤ mem.length)
    (hr : n.whileCondition mem mem.length 0 0 0 {} tableOfResults n.results = .ok r) :
    n.executeAsync debug mem position tableOfResults = .ok
      { task := .taskSucceed, node := n.setSeparated mem r, tableOfResults := r.tableOfResults,
        position := position + (n.setSeparated mem r).lengthConsumed } := by
  unfold executeAsync
  rw [if_neg fun hshort => Nat.not_lt.mpr (hdebug hshort.1) hshort.2,
    if_neg (Nat.not_lt.mpr hlength)]
  exact do_ok_iff.mpr ⟨r, hr, rfl⟩

theorem setSeparated_lengthConsumed {r : Separated} {indexEnd : ℕ}
    (h : r.indexEnd = some indexEnd) : (n.setSeparated mem r).lengthConsumed = indexEnd := by
  unfold setSeparated
  rw [h]

/-- A split without mistakes needs pieces that the loop passes. -/
theorem splitsCleanly_of_splitOff {path : String} {separator enclose : List UInt8} {run : NodeRun}
    (hsep : separator ≠ []) (hencl : enclose ≠ [])
    (hrun : (new path separator enclose).executeAsync debug mem position tableOfResults = .ok run)
    (hfirst : FirstAt enclose mem body rest) (hpieces : SplitsInto separator body pieces)
    (hoff : SplitOff position body enclose pieces run) :
    SplitsCleanly debug mem tableOfResults (new path separator enclose) := by
  obtain ⟨hdebug, ⟨-, rfl⟩ | ⟨-, -, r, hr, hnode, -⟩⟩ := executeAsync_ok hrun
  · cases hoff.task
  · have hitems := hoff.items
    rw [hnode, setSeparated_results] at hitems
    have hfirst₀ : FirstAt enclose (mem.drop 0) body rest := hfirst
    have hr₀ : (new path separator enclose).whileCondition mem mem.length (0 + 0) 0 0 {}
        tableOfResults [] = .ok r := hr
    obtain ⟨hpasses, hnew⟩ := passes_of_whileCondition hsep hencl hpieces hfirst₀
      (Nat.le_add_right _ 0) hr₀ (List.nil_append _).symm hitems
    refine ⟨hdebug, body, rest, pieces, hfirst, hpieces, hpasses, ?_⟩
    intro j hj
    rw [← Nat.zero_add j]
    exact hnew j hj

theorem exactSplit_of_splitsCleanly {path : String} {separator enclose : List UInt8}
    (hsep : separator ≠ []) (hencl : enclose ≠ [])
    (h : SplitsCleanly debug mem tableOfResults (new path separator enclose)) :
    ExactSplit reported debug mem position tableOfResults (new path separator enclose) := by
  obtain ⟨hdebug, body, rest, pieces, hfirst, hpieces, hpasses, hnew⟩ := h
  have hlength : enclose.length ≤ mem.length := hfirst.infix.length_le
  have hfirst₀ : FirstAt enclose (mem.drop 0) body rest := hfirst
  obtain ⟨r, hr, ⟨items, hitems, hstripped, hvalue⟩, hend⟩ :
      ∃ r, (new path separator enclose).whileCondition mem mem.length (0 + 0) 0 0 {}
          tableOfResults [] = .ok r ∧
        Found (new path separator enclose) [] pieces (0 + body.length + enclose.length) r :=
    whileCondition_found hsep hencl hpieces hfirst₀ (Nat.le_add_right mem.length 0) hpasses
      (by simpa using hnew)
  have hlengthConsumed : ((new path separator enclose).setSeparated mem r).lengthConsumed =
      (body.length + enclose.length : ℕ) := by
    rw [setSeparated_lengthConsumed hend, Nat.zero_add]
  refine ⟨_, executeAsync_eq hdebug hlength hr, ?_, fun hnot => absurd hfirst.infix hnot⟩
  intro body' rest' pieces' hfirst' hpieces'
  obtain ⟨rfl, rfl⟩ := hfirst.unique hfirst'
  obtain rfl := hpieces.unique hpieces'
  rw [List.nil_append] at hitems
  constructor
  · rfl
  · rw [setSeparated_results, hitems]
    exact hstripped
  · rw [setSeparated_results, hitems, hvalue]
    exact hpieces.flatten_marked enclose
  · rw [hlengthConsumed, List.length_append]
    rfl
  · rw [hlengthConsumed, List.length_append]
    rfl

theorem exactSplit_cases {path : String} {separator enclose : List UInt8}
    (hsep : separator ≠ []) (hencl : enclose ≠ []) (hsucceed : ¬ reported .taskSucceed)
    (h : ExactSplit reported debug mem position tableOfResults (new path separator enclose)) :
    SplitsCleanly debug mem tableOfResults (new path separator enclose) ∨
      (debug → 500 ≤ mem.length) ∧ mem.length < enclose.length ∧ reported .taskNotEnough := by
  obtain ⟨run, hrun, hoff, hnot⟩ := h
  by_cases hinfix : enclose <:+: mem
  · obtain ⟨body, rest, hfirst⟩ := FirstAt.exists_of_infix hinfix
    obtain ⟨pieces, hpieces⟩ := SplitsInto.exists hsep body
    exact .inl (splitsCleanly_of_splitOff hsep hencl hrun hfirst hpieces
      (hoff body rest pieces hfirst hpieces))
  · obtain ⟨hreported, -⟩ := hnot hinfix
    obtain ⟨hdebug, ⟨hshort, rfl⟩ | ⟨-, htask, -⟩⟩ := executeAsync_ok hrun
    · exact .inr ⟨hdebug, hshort, hreported⟩
    · rw [htask] at hreported
      exact absurd hreported hsucceed

/-- A separator or the enclosing bytes directly behind a separator are passed over, and so is the
end of an element that a separator starts in. A vector that has no end counts as read, and a
`DEBUG` build wants 500 bytes: only what is left of the input may be too short. -/
theorem exactSplit_iff (debug : Bool) (path : String) (separator enclose mem : List UInt8)
    (position : ℤ) (tableOfResults : TableOfResults) (hsep : separator ≠ [])
    (hencl : enclose ≠ []) :
    (ExactSplit (· = .taskNotFounded) debug mem position tableOfResults
        (new path separator enclose) ↔
      SplitsCleanly debug mem tableOfResults (new path separator enclose)) ∧
    (ExactSplit (· ≠ .taskSucceed) debug mem position tableOfResults
        (new path separator enclose) ↔
      SplitsCleanly debug mem tableOfResults (new path separator enclose) ∨
        (debug → 500 ≤ mem.length) ∧ mem.length < enclose.length) := by
  refine ⟨⟨fun h => ?_, exactSplit_of_splitsCleanly hsep hencl⟩, fun h => ?_, fun h => ?_⟩
  · obtain h | ⟨-, -, hreported⟩ := exactSplit_cases hsep hencl (by simp) h
    · exact h
    · cases hreported
  · obtain h | ⟨hdebug, hshort, -⟩ := exactSplit_cases hsep hencl (by simp) h
    · exact .inl h
    · exact .inr ⟨hdebug, hshort⟩
  · obtain h | ⟨hdebug, hshort⟩ := h
    · exact exactSplit_of_splitsCleanly hsep hencl h
    · refine ⟨{ task := .taskNotEnough, node := new path separator enclose, tableOfResults,
                position }, ?_, ?_, ?_⟩
      · unfold executeAsync
        rw [if_neg fun hlt => Nat.not_lt.mpr (hdebug hlt.1) hlt.2]
        exact if_pos hshort
      · intro body rest pieces hfirst
        exact absurd hfirst.infix.length_le (Nat.not_le.mpr hshort)
      · intro hnot
        refine ⟨by simp, ?_⟩
        intro item hitem
        cases hitem

/-- `a,b;` -/
theorem exactSplit_pair :
    ExactSplit (· = .taskNotFounded) false [97, 44, 98, 59] 0 ∅ (new "v" [44] [59]) := by
  apply (exactSplit_iff false "v" [44] [59] [97, 44, 98, 59] 0 ∅ (by decide) (by decide)).1.mpr
  have hfirst : FirstAt [(44 : UInt8)] [97, 44, 98] [97] [98] := ⟨rfl, by decide⟩
  have hpieces : SplitsInto [(44 : UInt8)] [97, 44, 98] [[97], [98]] :=
    .cons hfirst (.last (by decide))
  refine ⟨nofun, [97, 44, 98], [], [[97], [98]], ⟨rfl, by decide⟩, hpieces, ?_, ?_⟩
  · exact ⟨by decide, by decide, by decide⟩
  · intro k _ hmem
    exact AList.notMem_empty _ hmem

/-- `a,,b;`: the second separator is the first byte of the element `,b`. -/
theorem not_exactSplit :
    ¬ ExactSplit (· ≠ .taskSucceed) false [97, 44, 44, 98, 59] 0 ∅ (new "v" [44] [59]) := by
  intro ⟨run, hrun, hoff, _⟩
  have hfirst : FirstAt [(44 : UInt8)] [97, 44, 44, 98] [97] [44, 98] := ⟨rfl, by decide⟩
  have hempty : FirstAt [(44 : UInt8)] [44, 98] [] [98] := ⟨rfl, by decide⟩
  have hpieces : SplitsInto [(44 : UInt8)] [97, 44, 44, 98] [[97], [], [98]] :=
    .cons hfirst (.cons hempty (.last (by decide)))
  have hitems := (hoff [97, 44, 44, 98] [] [[97], [], [98]] ⟨rfl, by decide⟩ hpieces).items
  cases hrun
  exact absurd hitems (by decide)

/-! ### The node in the reader -/

/-- What the reader keeps of the elements is the bytes they take up. -/
theorem whileCondition_separate {r : Separated}
    (hr : n.whileCondition mem left i offset k nodeResult tableOfResults results = .ok r) :
    separate mem n.separator n.enclose left i offset (results.map (·.value)) =
      (r.results.map (·.value), r.indexEnd) := by
  induction left generalizing i offset k nodeResult tableOfResults results with
  | zero =>
    cases hr
    rfl
  | succ left ih =>
    unfold whileCondition at hr
    unfold separate
    split_ifs at hr ⊢
    · cases hr
      rfl
    · obtain ⟨added, hadded, hr⟩ := do_ok_iff.mp hr
      cases hr
      obtain ⟨-, hitem, -⟩ := TableOfResults.addDynamic_ok hadded
      rw [List.map_append, List.map_singleton, hitem]
      rfl
    · obtain ⟨added, hadded, hr⟩ := do_ok_iff.mp hr
      obtain ⟨-, hitem, -⟩ := TableOfResults.addDynamic_ok hadded
      rw [← ih hr, List.map_append, List.map_singleton, hitem]
      rfl
    · exact ih hr

/-- The reader executes the node as it is modelled here. -/
theorem executeRepeat_eq {path : String} {separator enclose : List UInt8} {run : NodeRun}
    {s : Reader}
    (h : (new path separator enclose).executeAsync debug s.slice s.position tableOfResults =
      .ok run) :
    executeRepeat debug path s (.whileCondition (some (separator, enclose))) =
      if run.task = .taskSucceed then
        s.advance run.node.lengthConsumed
          (.repeat path run.node.value run.node.lengthConsumed (run.node.results.map (·.value)))
      else .error taskIsFaulted := by
  obtain ⟨hdebug, hcases⟩ := executeAsync_ok h
  unfold executeRepeat repeatMode
  rw [if_neg fun hlt => Nat.not_lt.mpr (hdebug hlt.1) hlt.2]
  obtain ⟨hshort, rfl⟩ | ⟨hlength, htask, r, hr, hnode, -⟩ := hcases
  · exact if_pos hshort
  · have hseparate := whileCondition_separate hr
    rw [if_pos htask, hnode]
    simp only [show ¬ s.slice.length < enclose.length from Nat.not_lt.mpr hlength, if_false]
    rw [show separate s.slice separator enclose s.slice.length 0 0 [] = _ from hseparate]
    unfold setSeparated
    cases r.indexEnd with
    | none => rfl
    | some indexEnd => rfl

end NodeRepeat

end DecodingProxy.MappedFrameReader
