import DecodingProxy.Lib.Runs
import DecodingProxy.Runtime.Faults
import Mathlib.Data.List.Nodup
import Mathlib.Tactic.Common

/-!
# `PoolObjects<T>`

Two lists, `objectOn` of the rented objects and `objectOff` of the free ones. `Return` shrinks
the free list to its limit; the loop that does so steps back in every turn and runs until there
is nothing left to remove.
-/

namespace DecodingProxy.Pools
open DecodingProxy.Runtime DecodingProxy.Runs

/-- The protected fields that a pool is set up with, and the name of its type of objects. -/
structure PoolSettings where
  poolExtansion : ℤ := 50
  freeLimit : ℤ := 0
  isFreeLimited : Bool := false
  isAutoExtandOnPreExceed : Bool := false
  isAutoExtandOnPostExceed : Bool := false
  typeName : String := "T"
  deriving DecidableEq, Repr

structure PoolObjects (T : Type*) where
  objectOn : List T := []
  objectOff : List T := []
  /-- How many objects were created. -/
  created : ℕ := 0
  deriving DecidableEq, Repr

namespace PoolObjects

variable {T : Type*} [DecidableEq T] (settings : PoolSettings) (create : ℕ → T)

def exNotRented : Fault := .thrown .argument
  ("object " ++ settings.typeName ++ " is not associated with rented objects of this pool")

omit [DecidableEq T] in
/-- `count` turns of the loop. `create k` is what `new T()` or `FuncCreate` gives the `k`-th
time. -/
def extendLoop : ℕ → PoolObjects T → PoolObjects T
  | 0, p => p
  | count + 1, p =>
    extendLoop count
      { p with objectOff := p.objectOff ++ [create p.created], created := p.created + 1 }

omit [DecidableEq T] in
def extend (count : ℤ) (p : PoolObjects T) : PoolObjects T := extendLoop create count.toNat p

def rent (p : PoolObjects T) : Except Fault (T × PoolObjects T) :=
  let p :=
    if p.objectOff.length < 1 then
      p.extend create (if settings.isAutoExtandOnPreExceed then settings.poolExtansion else 1)
    else p
  match p.objectOff with
  | [] => .error (.raised .argumentOutOfRange)
  | result :: _ =>
    let p := { p with
      objectOn := p.objectOn ++ [result]
      objectOff := p.objectOff.erase result }
    let p :=
      if p.objectOff.length < 1 ∧ settings.isAutoExtandOnPostExceed then
        p.extend create settings.poolExtansion
      else p
    .ok (result, p)

omit [DecidableEq T] in
/-- The body takes the first object out and sets `i` back, so `i` is `0` in every turn. -/
def shrink (count : ℤ) : List T → Except Fault (List T)
  | [] => if 0 < count then .error (.raised .argumentOutOfRange) else .ok []
  | obj :: objectOff => if 0 < count then shrink count objectOff else .ok (obj :: objectOff)

/-- `Return`. -/
def giveBack (value : T) (p : PoolObjects T) : Except Fault (PoolObjects T) :=
  if value ∈ p.objectOn then do
    let objectOn := p.objectOn.erase value
    let objectOff := p.objectOff ++ [value]
    let count : ℤ := objectOff.length
    let objectOff ←
      (if settings.isFreeLimited ∧ count > settings.freeLimit then
        shrink (int32 (count - settings.freeLimit)) objectOff
      else .ok objectOff)
    .ok { p with objectOn, objectOff }
  else .error (exNotRented settings)

end PoolObjects

inductive PoolCall (T : Type*)
  | rent
  | giveBack (value : T)
  | extend (count : ℤ)
  deriving DecidableEq, Repr

/-- A pool with the objects it has handed out and not got back, and whether the last call was a
`Return`. -/
structure PoolSession (T : Type*) where
  pool : PoolObjects T := {}
  handedOut : List T := []
  afterReturn : Bool := false
  deriving DecidableEq, Repr

namespace PoolSession

variable {T : Type*} [DecidableEq T] (settings : PoolSettings) (create : ℕ → T)

/-- A `Rent` that finds no object throws and changes nothing. -/
def step (s : PoolSession T) : PoolCall T → Except Fault (PoolSession T)
  | .rent =>
    match s.pool.rent settings create with
    | .ok (result, pool) => .ok { pool, handedOut := s.handedOut ++ [result] }
    | .error _ => .ok { s with afterReturn := false }
  | .giveBack value => do
    let pool ← s.pool.giveBack settings value
    .ok { pool, handedOut := s.handedOut.erase value, afterReturn := true }
  | .extend count => .ok { s with pool := s.pool.extend create count, afterReturn := false }

omit [DecidableEq T] in
/-- No object is at two places, none is handed out while it is out, and a `Return` leaves no more
free objects than the limit allows. -/
structure Exclusive (s : PoolSession T) : Prop where
  rented : s.pool.objectOn.Nodup
  free : s.pool.objectOff.Nodup
  apart : s.pool.objectOn.Disjoint s.pool.objectOff
  once : s.handedOut.Nodup
  limited : s.afterReturn = true → settings.isFreeLimited = true →
    s.pool.objectOff.length ≤ settings.freeLimit

def KeepsApart (calls : List (PoolCall T)) : Prop :=
  RunsWell (step settings create) (Exclusive settings) {} calls

omit [DecidableEq T] in
/-- Only objects that are handed out are given back. -/
def ReturnsRented (s : PoolSession T) : PoolCall T → Prop
  | .giveBack value => value ∈ s.handedOut
  | _ => True

omit [DecidableEq T] in
/-- A `Return` finds fewer free objects than the limit, if there is one. -/
def HasRoom (s : PoolSession T) : PoolCall T → Prop
  | .giveBack _ => settings.isFreeLimited = true → s.pool.objectOff.length < settings.freeLimit
  | _ => True

instance (s : PoolSession T) (a : PoolCall T) : Decidable (s.ReturnsRented a) := by
  cases a <;> unfold ReturnsRented <;> infer_instance

instance (s : PoolSession T) (a : PoolCall T) : Decidable (s.HasRoom settings a) := by
  cases a <;> unfold HasRoom <;> infer_instance

end PoolSession

namespace PoolObjects

variable {T : Type*} {settings : PoolSettings} {create : ℕ → T} {p : PoolObjects T}

/-- All objects are at different places, and were created. -/
structure Sound (create : ℕ → T) (p : PoolObjects T) : Prop where
  nodup : (p.objectOn ++ p.objectOff).Nodup
  known : ∀ x ∈ p.objectOn ++ p.objectOff, ∃ k < p.created, create k = x

theorem extendLoop_sound (hcreate : Function.Injective create) (count : ℕ) (h : p.Sound create) :
    (extendLoop create count p).Sound create ∧
      (extendLoop create count p).objectOn = p.objectOn := by
  induction count generalizing p with
  | zero => exact ⟨h, rfl⟩
  | succ count ih =>
    refine ih (p := PoolObjects.mk p.objectOn (p.objectOff ++ [create p.created]) (p.created + 1))
      ⟨?_, ?_⟩
    · have hnew : create p.created ∉ p.objectOn ++ p.objectOff := by
        intro hmem
        obtain ⟨k, hk, heq⟩ := h.known _ hmem
        exact absurd (hcreate heq) hk.ne
      simp only [← List.append_assoc]
      exact List.nodup_append.mpr ⟨h.nodup, List.nodup_singleton _, by
        rintro x hx y hy rfl
        exact hnew (List.mem_singleton.mp hy ▸ hx)⟩
    · intro x hx
      simp only [← List.append_assoc, List.mem_append, List.mem_singleton] at hx
      rcases hx with hx | rfl
      · obtain ⟨k, hk, heq⟩ := h.known x (List.mem_append.mpr hx)
        exact ⟨k, Nat.lt_succ_of_lt hk, heq⟩
      · exact ⟨p.created, Nat.lt_succ_self _, rfl⟩

theorem extend_sound (hcreate : Function.Injective create) (count : ℤ) (h : p.Sound create) :
    (p.extend create count).Sound create ∧ (p.extend create count).objectOn = p.objectOn :=
  extendLoop_sound hcreate _ h

theorem shrink_inv {count : ℤ} {objectOff rest : List T} (h : shrink count objectOff = .ok rest) :
    count ≤ 0 ∧ rest = objectOff := by
  induction objectOff with
  | nil =>
    unfold shrink at h
    split_ifs at h with hcount
    cases h
    exact ⟨Int.not_lt.mp hcount, rfl⟩
  | cons obj objectOff ih =>
    unfold shrink at h
    split_ifs at h with hcount
    · exact absurd hcount (Int.not_lt.mpr (ih h).1)
    · cases h
      exact ⟨Int.not_lt.mp hcount, rfl⟩

variable [DecidableEq T]

theorem rent_sound (hcreate : Function.Injective create) (h : p.Sound create) {result : T}
    {p' : PoolObjects T} (hrent : p.rent settings create = .ok (result, p')) :
    p'.Sound create ∧ p'.objectOn = p.objectOn ++ [result] ∧ result ∉ p.objectOn := by
  unfold rent at hrent
  have hready : ∃ q : PoolObjects T, (if p.objectOff.length < 1 then p.extend create
      (if settings.isAutoExtandOnPreExceed then settings.poolExtansion else 1) else p) = q ∧
      q.Sound create ∧ q.objectOn = p.objectOn := by
    split_ifs
    · exact ⟨_, rfl, extend_sound hcreate _ h⟩
    · exact ⟨_, rfl, extend_sound hcreate _ h⟩
    · exact ⟨_, rfl, h, rfl⟩
  obtain ⟨q, hq, hsound, hon⟩ := hready
  rw [hq] at hrent
  dsimp only at hrent
  cases hoff : q.objectOff with
  | nil =>
    rw [hoff] at hrent
    cases hrent
  | cons first rest =>
    rw [hoff] at hrent
    simp only [List.erase_cons_head, Except.ok.injEq, Prod.mk.injEq] at hrent
    obtain ⟨rfl, rfl⟩ := hrent
    have hnodup := hsound.nodup
    rw [hoff, hon] at hnodup
    have hmoved : Sound create { q with objectOn := q.objectOn ++ [first], objectOff := rest } := by
      refine ⟨?_, ?_⟩
      · simpa [hon] using hnodup
      · have hknown := hsound.known
        rw [hoff] at hknown
        simpa using hknown
    have hnew : first ∉ p.objectOn := fun hmem =>
      (List.nodup_append.mp hnodup).2.2 first hmem first List.mem_cons_self rfl
    rw [← hon]
    split_ifs
    · obtain ⟨hextended, hon'⟩ := extend_sound hcreate settings.poolExtansion hmoved
      exact ⟨hextended, hon', hon ▸ hnew⟩
    · exact ⟨hmoved, rfl, hon ▸ hnew⟩

theorem giveBack_sound (h : p.Sound create) {value : T} (hvalue : value ∈ p.objectOn)
    (hroom : settings.isFreeLimited = true → p.objectOff.length < settings.freeLimit) :
    ∃ p', p.giveBack settings value = .ok p' ∧ p'.Sound create ∧
      p'.objectOn = p.objectOn.erase value ∧ p'.objectOff = p.objectOff ++ [value] := by
  have hlimit : ¬ (settings.isFreeLimited ∧
      ((p.objectOff ++ [value]).length : ℤ) > settings.freeLimit) := by
    rintro ⟨hlimited, hover⟩
    have hless := hroom hlimited
    simp only [List.length_append, List.length_singleton] at hover
    omega
  unfold giveBack
  rw [if_pos hvalue]
  dsimp only
  rw [if_neg hlimit]
  refine ⟨_, rfl, ?_, rfl, rfl⟩
  have hperm : (p.objectOn.erase value ++ (p.objectOff ++ [value])).Perm
      (p.objectOn ++ p.objectOff) := by
    rw [← List.append_assoc]
    refine (List.perm_append_singleton _ _).trans ?_
    exact ((List.perm_cons_erase hvalue).append_right p.objectOff).symm
  exact ⟨hperm.nodup_iff.mpr h.nodup, fun x hx => h.known x (hperm.mem_iff.mp hx)⟩

end PoolObjects

namespace PoolSession

variable {T : Type*} [DecidableEq T] {settings : PoolSettings} {create : ℕ → T}
  {s t : PoolSession T}

omit [DecidableEq T] in
/-- What is handed out is what is in the list of the rented objects. -/
structure Sound (settings : PoolSettings) (create : ℕ → T) (s : PoolSession T) : Prop where
  pool : s.pool.Sound create
  handedOut : s.handedOut = s.pool.objectOn
  limited : s.afterReturn = true → settings.isFreeLimited = true →
    s.pool.objectOff.length ≤ settings.freeLimit

omit [DecidableEq T] in
theorem Sound.exclusive (h : s.Sound settings create) : s.Exclusive settings := by
  obtain ⟨hon, hoff, hapart⟩ := List.nodup_append.mp h.pool.nodup
  refine ⟨hon, hoff, fun x hx hx' => hapart x hx x hx' rfl, ?_, h.limited⟩
  rw [h.handedOut]
  exact hon

omit [DecidableEq T] in
theorem sound_start : Sound settings create {} :=
  ⟨⟨List.nodup_nil, by simp⟩, rfl, by simp⟩

theorem Sound.step (hcreate : Function.Injective create) (h : s.Sound settings create)
    {a : PoolCall T} (hrented : s.ReturnsRented a) (hroom : s.HasRoom settings a) :
    ∃ t, s.step settings create a = .ok t ∧ t.Sound settings create := by
  cases a with
  | rent =>
    unfold PoolSession.step
    cases hrent : s.pool.rent settings create with
    | error fault => exact ⟨_, rfl, h.pool, h.handedOut, by simp⟩
    | ok result =>
      obtain ⟨result, pool⟩ := result
      obtain ⟨hpool, hon, -⟩ := PoolObjects.rent_sound hcreate h.pool hrent
      refine ⟨_, rfl, hpool, ?_, by simp⟩
      rw [hon, h.handedOut]
  | giveBack value =>
    have hvalue : value ∈ s.pool.objectOn := by
      rw [← h.handedOut]
      exact hrented
    obtain ⟨pool, hgive, hpool, hon, hoff⟩ := PoolObjects.giveBack_sound h.pool hvalue hroom
    refine ⟨_, do_of_ok hgive, hpool, ?_, fun _ hlimited => ?_⟩
    · rw [hon, h.handedOut]
    · have hless := hroom hlimited
      rw [hoff, List.length_append, List.length_singleton]
      omega
  | extend count =>
    obtain ⟨hpool, hon⟩ := PoolObjects.extend_sound hcreate count h.pool
    refine ⟨_, rfl, hpool, ?_, by simp⟩
    rw [hon, h.handedOut]

/-- A `Return` at the limit throws, or leaves too many free objects. -/
theorem step_full {a : PoolCall T} (hrented : s.ReturnsRented a) (h : s.Sound settings create)
    (hroom : ¬ s.HasRoom settings a) (ht : s.step settings create a = .ok t) :
    ¬ t.Exclusive settings := by
  cases a with
  | rent => exact absurd trivial hroom
  | extend count => exact absurd trivial hroom
  | giveBack value =>
    simp only [HasRoom, Classical.not_imp, not_lt] at hroom
    obtain ⟨hlimited, hfull⟩ := hroom
    have hvalue : value ∈ s.pool.objectOn := by
      rw [← h.handedOut]
      exact hrented
    obtain ⟨pool, hgive, ht⟩ := do_ok_iff.mp ht
    cases ht
    unfold PoolObjects.giveBack at hgive
    have hover : settings.isFreeLimited ∧
        ((s.pool.objectOff ++ [value]).length : ℤ) > settings.freeLimit := by
      refine ⟨hlimited, ?_⟩
      rw [List.length_append, List.length_singleton]
      omega
    rw [if_pos hvalue] at hgive
    dsimp only at hgive
    rw [if_pos hover] at hgive
    obtain ⟨objectOff, hshrink, hgive⟩ := do_ok_iff.mp hgive
    obtain ⟨-, rfl⟩ := PoolObjects.shrink_inv hshrink
    cases hgive
    intro hexclusive
    have hle := hexclusive.limited rfl hlimited
    have hgt := hover.2
    simp only at hle
    omega

theorem keepsApart_iff (settings : PoolSettings) {create : ℕ → T}
    (hcreate : Function.Injective create) (calls : List (PoolCall T))
    (hrented : Along (step settings create) ReturnsRented {} calls) :
    KeepsApart settings create calls ↔ Along (step settings create) (HasRoom settings) {} calls :=
  runsWell_iff_along (I := Sound settings create) (fun _ h => h.exclusive)
    (fun _ _ h hrented hroom => h.step hcreate hrented hroom)
    (fun _ _ h hrented hroom _ ht => step_full hrented h hroom ht) sound_start hrented

/-- An object that is rented, given back and rented again under a limit of one. -/
theorem keepsApart_reused :
    KeepsApart { freeLimit := 1, isFreeLimited := true } id [.rent, .giveBack 0, .rent] :=
  (keepsApart_iff _ Function.injective_id _ (by decide)).mpr (by decide)

/-- A pool that keeps no free objects. -/
theorem not_keepsApart_full :
    ¬ KeepsApart { isFreeLimited := true } id [.rent, .giveBack 0] := by
  rw [keepsApart_iff _ Function.injective_id _ (by decide)]
  decide

end PoolSession

end DecodingProxy.Pools
