import DecodingProxy.Lib.Runs
import DecodingProxy.Runtime.Faults
import Mathlib.Logic.Function.Basic

/-!
# What `Dispose` has left to do after `Return`

A pool of type `PoolObjectsConcurentWithBag` gives an object to the next `Rent` as soon as `Return`
has put it into its bag. One thread disposes an object, another rents it and initialises it; each
assignment and each call of the pool is a step.
-/

namespace DecodingProxy.Pools
open DecodingProxy.Runtime DecodingProxy.Runs

/-- The classes with a `Dispose` that gives the object back. -/
inductive Pooled
  | httpObject
  | httpBinaryMapped
  | socketReaderPiped
  | stalledData
  deriving DecidableEq, Repr

/-- The fields that are assigned in `Dispose` or by the one who rents. -/
inductive Field
  | pool
  /-- The field `pool` of the class `HttpBinary`. -/
  | basePool
  | sb
  | body
  | fields
  | isCompleted
  | isErrorReadMsg
  | isReadingFields
  | isReadingBody
  | isReadingBodyChunked
  | datas
  | length
  | generation
  | deaths
  | maps
  | fieldsCount
  | fieldsCountMapped
  | lengthAnalyzed
  | offset
  | indexEndBody
  | indexEndFields
  | type
  | isReadingUntilCloseConnection
  | binds
  | isDisposed
  | wrap
  | source
  | destination
  | reader
  | writer
  | pipe
  | cts
  | watchdog
  | client
  | ctd
  | next
  | previous
  deriving DecidableEq, Repr

inductive DisposeStep
  | clear (field : Field)
  /-- `Return` of the pool in a field, where `guarded` after a test that there is one. -/
  | giveBack (field : Field) (guarded : Bool)
  deriving DecidableEq, Repr

namespace Pooled

/-- `Dispose`, with those of the base classes. An assignment stands as `clear`, also `deaths++`.
`HttpObject` clears its pool only if there is one, and to clear none changes nothing. -/
def dispose : Pooled → List DisposeStep
  | .httpObject => [.giveBack .pool true, .clear .pool, .clear .sb, .clear .body, .clear .fields,
    .clear .isCompleted, .clear .isErrorReadMsg, .clear .isReadingFields, .clear .isReadingBody,
    .clear .isReadingBodyChunked]
  | .httpBinaryMapped => [.clear .datas, .giveBack .basePool true, .clear .basePool, .clear .length,
    .clear .deaths, .clear .maps, .giveBack .pool true, .clear .pool, .clear .fieldsCount,
    .clear .fieldsCountMapped, .clear .lengthAnalyzed, .clear .offset, .clear .indexEndBody,
    .clear .indexEndFields, .clear .type, .clear .isReadingUntilCloseConnection]
  | .socketReaderPiped => [.clear .binds, .clear .isDisposed, .clear .wrap, .clear .destination,
    .clear .source, .giveBack .pool false, .clear .pool, .clear .reader, .clear .writer,
    .clear .pipe]
  | .stalledData => [.giveBack .pool false, .clear .pool, .clear .client, .clear .ctd, .clear .next,
    .clear .previous]

/-- What the one who rents assigns: `BindToPool` and `BeginMsg`; `Init`, `BindToPool` and
`FieldsStart`; `BindToPool` and `Initilize`; `Reset`, `Bind` and `Init`. -/
def initilize : Pooled → List Field
  | .httpObject => [.pool, .isReadingFields]
  | .httpBinaryMapped => [.generation, .pool, .type, .length]
  | .socketReaderPiped => [.pool, .isDisposed, .wrap, .source]
  | .stalledData => [.cts, .watchdog, .ctd, .pool, .client, .watchdog]

end Pooled

inductive FieldValue
  | cleared
  /-- It is of the use that ends with this `Dispose`. -/
  | old
  /-- The one who has rented the object has set it. -/
  | fresh
  deriving DecidableEq, Repr

structure SharedObject where
  values : Field → FieldValue
  /-- The pools that hold it, by the fields that they were in. -/
  pools : List Field := []
  /-- What the thread in `Dispose` has yet to do. -/
  disposing : List DisposeStep
  /-- What the one who has rented it has yet to set. -/
  initialising : Option (List Field) := none
  /-- The fields that were cleared after they were set for the new use. -/
  overwritten : List Field := []

inductive ShareStep
  | dispose
  | rent
  | initialise
  deriving DecidableEq, Repr

namespace SharedObject

variable (kind : Pooled)

/-- An object before `Dispose`, whose fields `assigned` have a value. -/
def start (assigned : Field → Bool) : SharedObject where
  values := fun field => if assigned field then .old else .cleared
  disposing := kind.dispose

/-- A step that throws gives the exception, and one that cannot be made gives none. -/
def step (s : SharedObject) : ShareStep → Except (Option Fault) SharedObject
  | .dispose =>
    match s.disposing with
    | [] => .error none
    | .clear field :: disposing =>
      .ok { s with
        values := Function.update s.values field .cleared
        disposing
        overwritten :=
          if s.values field = .fresh then field :: s.overwritten else s.overwritten }
    | .giveBack field guarded :: disposing =>
      if s.values field = .cleared then
        if guarded then .ok { s with disposing } else .error (some (.raised .nullReference))
      else .ok { s with pools := field :: s.pools, disposing }
  | .rent =>
    match s.pools, s.initialising with
    | _ :: pools, none => .ok { s with pools, initialising := some kind.initilize }
    | _, _ => .error none
  | .initialise =>
    match s.initialising with
    | some (field :: initialising) =>
      .ok { s with
        values := Function.update s.values field .fresh
        initialising := some initialising }
    | _ => .error none

/-- While a pool holds the object nothing of it is still to be cleared, and nothing that was set
for the new use was. -/
structure Clean (s : SharedObject) : Prop where
  pooled : s.pools ≠ [] → ∀ field, .clear field ∉ s.disposing
  kept : s.overwritten = []

def StaysClean (assigned : Field → Bool) (steps : List ShareStep) : Prop :=
  ∀ s, Reached (step kind) (start kind assigned) steps s → s.Clean

/-- `Dispose` does not give the object to a pool. -/
def KeepsBack (s : SharedObject) : ShareStep → Prop
  | .dispose => ∀ field guarded disposing, s.disposing = .giveBack field guarded :: disposing →
    s.values field = .cleared
  | .rent | .initialise => True

/-- The object is where it was before `Dispose`. -/
structure Kept (s : SharedObject) : Prop where
  pools : s.pools = []
  initialising : s.initialising = none
  values : ∀ field, s.values field ≠ .fresh
  disposing : s.disposing <:+ kind.dispose

variable {kind} {s t : SharedObject}

variable (kind) in
theorem dispose_ends : ∃ field, kind.dispose.getLast? = some (.clear field) := by
  cases kind <;> exact ⟨_, rfl⟩

theorem mem_of_suffix_cons {α : Type*} {a x : α} {rest l : List α} (h : a :: rest <:+ l)
    (hlast : l.getLast? = some x) (hne : a ≠ x) : x ∈ rest := by
  obtain ⟨front, rfl⟩ := h
  rw [List.getLast?_append_of_ne_nil _ (List.cons_ne_nil a rest)] at hlast
  exact (List.mem_cons.mp (List.mem_of_getLast? hlast)).resolve_left hne.symm

/-- The last thing that `Dispose` does is to clear a field. -/
theorem Kept.clears (h : s.Kept kind) {field : Field} {guarded : Bool}
    {disposing : List DisposeStep} (hs : s.disposing = .giveBack field guarded :: disposing) :
    ∃ last, .clear last ∈ disposing := by
  obtain ⟨last, hlast⟩ := dispose_ends kind
  have hsuffix := h.disposing
  rw [hs] at hsuffix
  exact ⟨last, mem_of_suffix_cons hsuffix hlast nofun⟩

theorem Kept.suffix (h : s.Kept kind) {a : DisposeStep} {disposing : List DisposeStep}
    (hs : s.disposing = a :: disposing) : disposing <:+ kind.dispose := by
  have hsuffix := h.disposing
  rw [hs] at hsuffix
  exact (List.suffix_cons a disposing).trans hsuffix

theorem kept_start (assigned : Field → Bool) : (start kind assigned).Kept kind := by
  refine ⟨rfl, rfl, fun field => ?_, List.suffix_rfl⟩
  simp only [start]
  split_ifs <;> decide

/-- A step is clean just when it does not put the object into a pool, and then the object is where
it was. -/
theorem Kept.step (h : s.Kept kind) (hclean : s.Clean) {a : ShareStep}
    (ht : step kind s a = .ok t) :
    (t.Clean ↔ s.KeepsBack a) ∧ (t.Clean → t.Kept kind) := by
  cases a with
  | dispose =>
    simp only [SharedObject.step] at ht
    split at ht
    case h_1 => cases ht
    case h_2 field disposing hs =>
      cases ht
      have hkeeps : s.KeepsBack .dispose := by
        intro field' guarded disposing' hs'
        rw [hs] at hs'
        cases hs'
      refine ⟨iff_of_true ⟨fun hne => absurd h.pools hne, ?_⟩ hkeeps, fun _ => ?_⟩
      · simp [h.values field, hclean.kept]
      · refine ⟨h.pools, h.initialising, fun x => ?_, h.suffix hs⟩
        by_cases hx : x = field
        · simp [hx]
        · simpa [hx] using h.values x
    case h_3 field guarded disposing hs =>
      split at ht
      case isTrue hcleared =>
        split at ht
        · cases ht
          have hkeeps : s.KeepsBack .dispose := by
            intro field' guarded' disposing' hs'
            rw [hs] at hs'
            cases hs'
            exact hcleared
          refine ⟨iff_of_true ⟨fun hne => absurd h.pools hne, hclean.kept⟩ hkeeps, fun _ => ?_⟩
          exact ⟨h.pools, h.initialising, h.values, h.suffix hs⟩
        · cases ht
      case isFalse hassigned =>
        cases ht
        obtain ⟨last, hlast⟩ := h.clears hs
        have hdirty : ¬ Clean { s with pools := field :: s.pools, disposing } :=
          fun hall => hall.pooled (List.cons_ne_nil _ _) last hlast
        exact ⟨iff_of_false hdirty fun hkeeps => hassigned (hkeeps field guarded disposing hs),
          fun hall => absurd hall hdirty⟩
  | rent =>
    rw [SharedObject.step, h.pools] at ht
    cases ht
  | initialise =>
    rw [SharedObject.step, h.initialising] at ht
    cases ht

/-- In every run, the object is clean whenever a pool holds it just when no pool gets it. -/
theorem staysClean_iff (kind : Pooled) (assigned : Field → Bool) (steps : List ShareStep) :
    StaysClean kind assigned steps ↔ Along (step kind) KeepsBack (start kind assigned) steps := by
  refine reached_iff_along (I := Kept kind) (fun s a h hclean => ?_)
    (fun s a t h hclean ht => (h.step hclean ht).2) (fun s a t h hclean ht => (h.step hclean ht).1)
    (kept_start assigned) ⟨fun hne => absurd rfl hne, rfl⟩
  cases a with
  | dispose =>
    rcases ht : step kind s .dispose with fault | t
    · refine .inr fun field guarded disposing hs => ?_
      simp only [SharedObject.step, hs] at ht
      split at ht
      case isTrue hcleared => exact hcleared
      case isFalse => cases ht
    · exact .inl ⟨t, rfl⟩
  | rent => exact .inr trivial
  | initialise => exact .inr trivial

/-- The object is rented before its pool is cleared; the pool that is cleared then is the one to
which the new owner has bound it. -/
theorem not_staysClean_stalledData :
    ¬ StaysClean .stalledData (fun _ => true)
        [.dispose, .rent, .initialise, .initialise, .initialise, .initialise, .dispose] ∧
      (run (step .stalledData) (start .stalledData fun _ => true)
        [.dispose, .rent, .initialise, .initialise, .initialise, .initialise, .dispose]).map
          overwritten = .ok [.pool] := by
  constructor
  · intro h
    have hclean := h _ (reached_of_run rfl)
    exact absurd hclean.kept (by decide)
  · rfl

end SharedObject

end DecodingProxy.Pools
