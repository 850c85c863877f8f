import DecodingProxy.Lib.Chains
import DecodingProxy.Runtime.Faults
import Mathlib.Data.List.Perm.Subperm
import Mathlib.Logic.Function.Basic

/-!
# `ConnectionsToDomain`: the chain of stalled connections

A connection that nobody uses waits in an entry of a doubly linked list, with a watchdog that
removes the entry after a time. Entries are objects of a pool that all domains share. The
functions are what a thread does without giving up its lock, or between two locks.
-/

namespace DecodingProxy.Tcp
open DecodingProxy.Runtime DecodingProxy.Chains

abbrev ClientId := ℕ
abbrev EntryId := ℕ
abbrev SourceId := ℕ

structure StalledData where
  cts : SourceId := 0
  client : Option ClientId := none
  next : Option EntryId := none
  previous : Option EntryId := none
  /-- The references to the pool and to the domain are set. -/
  bound : Bool := false
  deriving DecidableEq, Repr

/-- The chain, the objects of class `StalledData` with the pool they come from, and the token
sources that are cancelled. -/
structure StalledConnections where
  head : Option EntryId := none
  entries : EntryId → StalledData := fun _ => {}
  allocated : ℕ := 0
  pool : List EntryId := []
  sources : ℕ := 0
  canceled : List SourceId := []

namespace StalledConnections

def nullReference : Halt := .threw (.raised .nullReference)

def next (s : StalledConnections) (r : EntryId) : Option EntryId := (s.entries r).next
def previous (s : StalledConnections) (r : EntryId) : Option EntryId := (s.entries r).previous
def client (s : StalledConnections) (r : EntryId) : Option ClientId := (s.entries r).client

/-- The entries met from the head on. -/
def chain (s : StalledConnections) : List EntryId := follow s.next s.allocated s.head

def set (r : EntryId) (entry : StalledData) (s : StalledConnections) : StalledConnections :=
  { s with entries := Function.update s.entries r entry }

/-- `Rent` of the pool: some free entry, or a new one when there is none. -/
def rent (pick : ℕ) (s : StalledConnections) : EntryId × StalledConnections :=
  match s.pool[pick % s.pool.length]? with
  | some r => (r, { s with pool := s.pool.erase r })
  | none =>
    (s.allocated, { s.set s.allocated { cts := s.sources } with
      allocated := s.allocated + 1
      sources := s.sources + 1 })

/-- A source that was cancelled cannot be used again. -/
def reset (r : EntryId) (s : StalledConnections) : StalledConnections :=
  if (s.entries r).cts ∈ s.canceled then
    { s.set r { s.entries r with cts := s.sources } with sources := s.sources + 1 }
  else s

def bind (r : EntryId) (s : StalledConnections) : StalledConnections :=
  s.set r { s.entries r with bound := true }

/-- `StalledData.Get`. -/
def get (pick : ℕ) (s : StalledConnections) : EntryId × StalledConnections :=
  let (r, s) := s.rent pick
  (r, (s.reset r).bind r)

def init (r : EntryId) (client : ClientId) (s : StalledConnections) : StalledConnections :=
  s.set r { s.entries r with client := some client }

def setAfter (r : EntryId) (prev : Option EntryId) (s : StalledConnections) :
    Except Halt StalledConnections :=
  match prev with
  | none => .error nullReference
  | some p =>
    let s := s.set p { s.entries p with next := some r }
    .ok (s.set r { s.entries r with previous := some p })

/-- The lock section of `MoveToStalled`. -/
def append (r : EntryId) (s : StalledConnections) : Except Halt StalledConnections :=
  match s.head with
  | none => .ok { s with head := some r }
  | some head =>
    match last s.next s.allocated head with
    | none => .error .diverges
    | some current => s.setAfter r (some current)

/-- The lock section of `FindHead`. -/
def takeHead (s : StalledConnections) : Except Halt (EntryId × StalledConnections) :=
  match s.head with
  | none => .error nullReference
  | some result =>
    let s := { s with head := s.next result }
    match s.head with
    | none => .ok (result, s)
    | some head => .ok (result, s.set head { s.entries head with previous := none })

def removeFromChain (r : EntryId) (s : StalledConnections) : Except Halt StalledConnections :=
  if (s.entries r).client = none then .error nullReference
  else if (s.entries r).bound = false then .error (.threw (.raised .argumentNull))
  else if s.head = some r then .ok { s with head := s.next r }
  else
    match s.next r with
    | some n => s.setAfter n (s.previous r)
    | none =>
      match s.previous r with
      | none => .error nullReference
      | some p => .ok (s.set p { s.entries p with next := none })

def cancel (r : EntryId) (s : StalledConnections) : StalledConnections :=
  { s with canceled := (s.entries r).cts :: s.canceled }

/-- The first statement of `StalledData.Dispose`. -/
def returnToPool (r : EntryId) (s : StalledConnections) : Except Halt StalledConnections :=
  if (s.entries r).bound = false then .error nullReference else .ok { s with pool := r :: s.pool }

/-- The rest of it. -/
def clear (r : EntryId) (s : StalledConnections) : StalledConnections :=
  s.set r { cts := (s.entries r).cts }

def dispose (r : EntryId) (s : StalledConnections) : Except Halt StalledConnections := do
  let s ← s.returnToPool r
  .ok (s.clear r)

/-- An entry as `Rent` expects it: new, or cleared. -/
def IsClean (s : StalledConnections) (r : EntryId) : Prop :=
  s.next r = none ∧ s.previous r = none

/-- `rs` are the entries of the chain, in their order, and each one holds a connection. -/
structure Holds (rs : List EntryId) (s : StalledConnections) : Prop where
  chain : Chain s.next s.previous s.head rs
  known : ∀ r ∈ rs, r < s.allocated
  held : ∀ r ∈ rs, s.client r ≠ none ∧ (s.entries r).bound = true

variable {rs : List EntryId} {s : StalledConnections}

@[simp] theorem set_head (r : EntryId) (entry : StalledData) (s : StalledConnections) :
    (s.set r entry).head = s.head := rfl

@[simp] theorem set_allocated (r : EntryId) (entry : StalledData) (s : StalledConnections) :
    (s.set r entry).allocated = s.allocated := rfl

@[simp] theorem set_pool (r : EntryId) (entry : StalledData) (s : StalledConnections) :
    (s.set r entry).pool = s.pool := rfl

@[simp] theorem set_entries_self (r : EntryId) (entry : StalledData) (s : StalledConnections) :
    (s.set r entry).entries r = entry := by
  simp [set]

theorem set_entries_of_ne {r x : EntryId} (h : x ≠ r) (entry : StalledData)
    (s : StalledConnections) : (s.set r entry).entries x = s.entries x := by
  simp [set, h]

/-- Only links have changed, and only those of `rs`. -/
structure Relinked (rs : List EntryId) (s t : StalledConnections) : Prop where
  allocated : t.allocated = s.allocated
  pool : t.pool = s.pool
  fields : ∀ x, t.client x = s.client x ∧ (t.entries x).bound = (s.entries x).bound
  links : ∀ x, x ∉ rs → t.entries x = s.entries x

theorem Relinked.head (s : StalledConnections) (head : Option EntryId) :
    Relinked rs s { s with head } :=
  ⟨rfl, rfl, fun _ => ⟨rfl, rfl⟩, fun _ _ => rfl⟩

theorem Relinked.set {r : EntryId} (hr : r ∈ rs) {entry : StalledData}
    (hclient : entry.client = s.client r) (hbound : entry.bound = (s.entries r).bound) :
    Relinked rs s (s.set r entry) := by
  refine ⟨rfl, rfl, fun x => ?_, fun x hx => ?_⟩
  · by_cases hxr : x = r
    · subst hxr
      simp [StalledConnections.client, hclient, hbound]
    · simp [StalledConnections.client, set_entries_of_ne hxr]
  · exact set_entries_of_ne (ne_of_mem_of_not_mem hr hx).symm _ _

theorem Relinked.trans {t u : StalledConnections} (h : Relinked rs s t) (h' : Relinked rs t u) :
    Relinked rs s u :=
  ⟨h'.allocated.trans h.allocated, h'.pool.trans h.pool,
    fun x => ⟨(h'.fields x).1.trans (h.fields x).1, (h'.fields x).2.trans (h.fields x).2⟩,
    fun x hx => (h'.links x hx).trans (h.links x hx)⟩

theorem Relinked.mono {t : StalledConnections} {rs' : List EntryId} (h : Relinked rs s t)
    (hsub : rs ⊆ rs') : Relinked rs' s t :=
  ⟨h.allocated, h.pool, h.fields, fun x hx => h.links x fun hmem => hx (hsub hmem)⟩

theorem Relinked.holds {t : StalledConnections} {rs' : List EntryId} (h : Relinked rs s t)
    (hchain : Chain t.next t.previous t.head rs')
    (hold : ∀ r ∈ rs', r < s.allocated ∧ s.client r ≠ none ∧ (s.entries r).bound = true) :
    t.Holds rs' := by
  refine ⟨hchain, fun r hr => ?_, fun r hr => ?_⟩
  · rw [h.allocated]
    exact (hold r hr).1
  · rw [(h.fields r).1, (h.fields r).2]
    exact (hold r hr).2

theorem holds_start : ({} : StalledConnections).Holds [] := ⟨chain_nil, by simp, by simp⟩

theorem Holds.length_le (h : s.Holds rs) : rs.length ≤ s.allocated := by
  have hsub : rs ⊆ List.range s.allocated := fun r hr => List.mem_range.mpr (h.known r hr)
  simpa using (List.Nodup.subperm h.chain.nodup hsub).length_le

theorem Holds.chain_eq (h : s.Holds rs) : s.chain = rs := h.chain.follow_eq h.length_le

theorem Holds.each (h : s.Holds rs) :
    ∀ r ∈ rs, r < s.allocated ∧ s.client r ≠ none ∧ (s.entries r).bound = true :=
  fun r hr => ⟨h.known r hr, h.held r hr⟩

/-- An entry outside the chain may change in any way. -/
theorem Holds.set (h : s.Holds rs) {r : EntryId} (hr : r ∉ rs) (entry : StalledData) :
    (s.set r entry).Holds rs := by
  have hsame : ∀ x ∈ rs, (s.set r entry).entries x = s.entries x := fun x hx =>
    set_entries_of_ne (ne_of_mem_of_not_mem hx hr) _ _
  refine ⟨h.chain.congr (fun x hx => ?_) (fun x hx => ?_), h.known, fun x hx => ?_⟩
  · simp [next, hsame x hx]
  · simp [previous, hsame x (List.mem_of_mem_tail hx)]
  · simpa [client, hsame x hx] using h.held x hx

theorem setAfter_ok {p r : EntryId} (hp : p ∈ rs) (hr : r ∈ rs) (hne : p ≠ r) :
    ∃ t, s.setAfter r (some p) = .ok t ∧ Relinked rs s t ∧ t.head = s.head ∧
      t.next p = some r ∧ (∀ x, x ≠ p → t.next x = s.next x) ∧
      t.previous r = some p ∧ ∀ x, x ≠ r → t.previous x = s.previous x := by
  have hforth : Relinked rs s (s.set p { s.entries p with next := some r }) := .set hp rfl rfl
  refine ⟨_, rfl, hforth.trans ?_, rfl, ?_, fun x hx => ?_, ?_, fun x hx => ?_⟩
  · exact .set hr rfl rfl
  · simp [next, set_entries_of_ne hne]
  · by_cases hxr : x = r
    · subst hxr
      simp [next, set_entries_of_ne hne.symm]
    · simp [next, set_entries_of_ne hxr, set_entries_of_ne hx]
  · simp [previous]
  · by_cases hxp : x = p
    · subst hxp
      simp [previous, set_entries_of_ne hx]
    · simp [previous, set_entries_of_ne hx, set_entries_of_ne hxp]

theorem Holds.append (h : s.Holds rs) {r : EntryId} (hr : r ∉ rs) (hknown : r < s.allocated)
    (hclient : s.client r ≠ none) (hbound : (s.entries r).bound = true) (hclean : s.IsClean r) :
    ∃ t, s.append r = .ok t ∧ t.Holds (rs ++ [r]) ∧ Relinked (rs ++ [r]) s t := by
  have heach : ∀ x ∈ rs ++ [r],
      x < s.allocated ∧ s.client x ≠ none ∧ (s.entries x).bound = true := by
    intro x hx
    rcases List.mem_append.mp hx with hx | hx
    · exact h.each x hx
    · exact List.mem_singleton.mp hx ▸ ⟨hknown, hclient, hbound⟩
  unfold StalledConnections.append
  cases hhead : s.head with
  | none =>
    have hnil : rs = [] := by
      have hfirst := h.chain.head
      rw [hhead] at hfirst
      exact List.head?_eq_none_iff.mp hfirst.symm
    subst hnil
    have hrelinked : Relinked [r] s { s with head := some r } := .head s (some r)
    exact ⟨_, rfl, hrelinked.holds (chain_singleton hclean.1) heach, hrelinked⟩
  | some head =>
    have hchain := h.chain
    rw [hhead] at hchain
    have hlast := hchain.last_eq h.length_le
    obtain ⟨current, hcurrent⟩ : ∃ current, rs.getLast? = some current := by
      cases hl : rs.getLast? with
      | none =>
        rw [List.getLast?_eq_none_iff] at hl
        rw [hl] at hchain
        cases hchain.head
      | some current => exact ⟨current, rfl⟩
    have hmem : current ∈ rs := List.mem_of_getLast? hcurrent
    have hne : current ≠ r := ne_of_mem_of_not_mem hmem hr
    dsimp only
    rw [hlast, hcurrent]
    obtain ⟨t, ht, hrelinked, hthead, hnext, hnexts, hprevious, hpreviouses⟩ :=
      @setAfter_ok (rs ++ [r]) s current r (by simp [hmem]) (by simp) hne
    refine ⟨t, ht, hrelinked.holds ?_ heach, hrelinked⟩
    rw [hthead]
    exact h.chain.push hcurrent hr (fun x _ hxc => hnexts x hxc) hnext
      ((hnexts r hne.symm).trans hclean.1)
      (fun x hx => hpreviouses x (ne_of_mem_of_not_mem hx hr)) hprevious

theorem Holds.takeHead {r : EntryId} (h : s.Holds (r :: rs)) :
    ∃ t, s.takeHead = .ok (r, t) ∧ t.Holds rs ∧ Relinked rs s t := by
  have hhead : s.head = some r := h.chain.head
  have heach : ∀ x ∈ rs, x < s.allocated ∧ s.client x ≠ none ∧ (s.entries x).bound = true :=
    fun x hx => h.each x (List.mem_cons_of_mem r hx)
  have htail := h.chain.tail
  unfold StalledConnections.takeHead
  rw [hhead]
  dsimp only
  cases hnext : s.next r with
  | none =>
    rw [hnext] at htail
    have hrelinked : Relinked rs s { s with head := none } := .head s none
    exact ⟨_, rfl, hrelinked.holds htail heach, hrelinked⟩
  | some head =>
    rw [hnext] at htail
    have hfirst : rs.head? = some head := htail.head.symm
    have hmem : head ∈ rs := List.mem_of_head? hfirst
    have hrelinked : Relinked rs s
        (({ s with head := some head } : StalledConnections).set head
          { s.entries head with previous := none }) :=
      (Relinked.head s (some head)).trans (.set hmem rfl rfl)
    refine ⟨_, rfl, hrelinked.holds (htail.congr (fun x hx => ?_) fun x hx => ?_) heach, hrelinked⟩
    · by_cases hxh : x = head
      · subst hxh
        simp [next]
      · simp [next, set_entries_of_ne hxh]
    · have hxh : x ≠ head := by
        rintro rfl
        obtain ⟨rest, rfl⟩ := List.head?_eq_some_iff.mp hfirst
        exact (List.nodup_cons.mp htail.nodup).1 hx
      simp [previous, set_entries_of_ne hxh]

theorem Holds.removeFromChain_first {r : EntryId} (h : s.Holds (r :: rs)) :
    ∃ t, s.removeFromChain r = .ok t ∧ t.Holds rs ∧ Relinked rs s t := by
  have hclient : ¬ (s.entries r).client = none := (h.held r List.mem_cons_self).1
  have hbound := (h.held r List.mem_cons_self).2
  have hhead : s.head = some r := h.chain.head
  have hrelinked : Relinked rs s { s with head := s.next r } := .head s _
  unfold StalledConnections.removeFromChain
  rw [if_neg hclient, if_neg (by simp [hbound]), if_pos hhead]
  exact ⟨_, rfl, hrelinked.holds h.chain.tail fun x hx => h.each x (List.mem_cons_of_mem r hx),
    hrelinked⟩

section Behind
variable {as bs : List EntryId} {a r b : EntryId}

/-- Behind another entry the first branch is not taken. -/
theorem Holds.removeFromChain_behind (h : s.Holds (as ++ a :: r :: bs)) :
    s.removeFromChain r =
      match s.next r with
      | some n => s.setAfter n (s.previous r)
      | none =>
        match s.previous r with
        | none => .error nullReference
        | some p => .ok (s.set p { s.entries p with next := none }) := by
  have hclient : ¬ (s.entries r).client = none := (h.held r (by simp)).1
  have hbound := (h.held r (by simp)).2
  have hhead : s.head ≠ some r := by
    have hnodup := h.chain.nodup
    have hfirst := h.chain.head
    intro hhead
    rw [hhead] at hfirst
    cases as with
    | nil =>
      cases hfirst
      simp at hnodup
    | cons x as =>
      cases hfirst
      simp at hnodup
  unfold StalledConnections.removeFromChain
  rw [if_neg hclient, if_neg (by simp [hbound]), if_neg hhead]

theorem Holds.removeFromChain_last (h : s.Holds (as ++ [a, r])) :
    ∃ t, s.removeFromChain r = .ok t ∧ t.Holds (as ++ [a]) ∧ Relinked (as ++ [a]) s t := by
  obtain ⟨hprevious, hnext⟩ := h.chain.at_end
  have ha : a ∈ as ++ [a] := by simp
  have hrelinked : Relinked (as ++ [a]) s (s.set a { s.entries a with next := none }) :=
    .set ha rfl rfl
  have hfront : ∀ x ∈ as, x ≠ a := by
    have hnodup := h.chain.nodup
    simp only [List.nodup_append, List.mem_cons] at hnodup
    exact fun x hx => hnodup.2.2 x hx a (.inl rfl)
  have hsub : as ++ [a] ⊆ as ++ [a, r] := (((List.nil_sublist [r]).cons_cons a).append_left as).subset
  rw [h.removeFromChain_behind, hnext, hprevious]
  refine ⟨_, rfl, hrelinked.holds ?_ fun x hx => h.each x (hsub hx), hrelinked⟩
  refine h.chain.cut (fun x hx => ?_) (by simp [next]) fun x hx => ?_
  · simp [next, set_entries_of_ne (hfront x hx)]
  · by_cases hxa : x = a
    · subst hxa
      simp [previous]
    · simp [previous, set_entries_of_ne hxa]

theorem Holds.removeFromChain_between (h : s.Holds (as ++ a :: r :: b :: bs)) :
    ∃ t, s.removeFromChain r = .ok t ∧ t.Holds (as ++ a :: b :: bs) ∧
      Relinked (as ++ a :: b :: bs) s t := by
  obtain ⟨hprevious, hnext⟩ := h.chain.around
  have hnodup := h.chain.nodup
  simp only [List.nodup_append, List.nodup_cons, List.mem_cons, not_or] at hnodup
  have hne : a ≠ b := hnodup.2.1.1.2.1
  have hsub : as ++ a :: b :: bs ⊆ as ++ a :: r :: b :: bs :=
    (((List.sublist_cons_self r _).cons_cons a).append_left as).subset
  obtain ⟨t, ht, hrelinked, hthead, hforth, hnexts, hback, hpreviouses⟩ :=
    @setAfter_ok (as ++ a :: b :: bs) s a b (by simp) (by simp) hne
  rw [h.removeFromChain_behind, hnext, hprevious]
  refine ⟨t, ht, hrelinked.holds ?_ fun x hx => h.each x (hsub hx), hrelinked⟩
  rw [hthead]
  refine h.chain.unlink (fun x hx => hnexts x ?_) hforth (fun x hx => hpreviouses x ?_) hback
  · rintro rfl
    grind
  · rintro rfl
    grind

end Behind

theorem Holds.removeFromChain (h : s.Holds rs) {r : EntryId} (hr : r ∈ rs) :
    ∃ t, s.removeFromChain r = .ok t ∧ t.Holds (rs.erase r) ∧ Relinked (rs.erase r) s t := by
  obtain ⟨front, back, rfl⟩ := List.append_of_mem hr
  have hfront : r ∉ front := by
    have hnodup := h.chain.nodup
    rw [List.nodup_middle, List.nodup_cons, List.mem_append, not_or] at hnodup
    exact hnodup.1.1
  rw [List.erase_append_right _ hfront, List.erase_cons_head]
  rcases List.eq_nil_or_concat' front with rfl | ⟨as, a, rfl⟩
  · exact h.removeFromChain_first
  · rw [List.append_assoc, List.singleton_append] at h ⊢
    cases back with
    | nil => exact h.removeFromChain_last
    | cons b bs => exact h.removeFromChain_between

/-! ### Entries outside the chain -/

/-- The free entries are known, each is free once, and none is in the chain. -/
structure Stocked (rs : List EntryId) (s : StalledConnections) : Prop where
  nodup : s.pool.Nodup
  known : ∀ r ∈ s.pool, r < s.allocated
  apart : ∀ r ∈ s.pool, r ∉ rs

/-- What `Get` does with the entry `r` that it gives. -/
structure Got (rs : List EntryId) (r : EntryId) (s t : StalledConnections) : Prop where
  holds : t.Holds rs
  pool : t.pool = s.pool.erase r
  source : r ∈ s.pool ∧ t.allocated = s.allocated ∨
    r = s.allocated ∧ t.allocated = s.allocated + 1
  bound : (t.entries r).bound = true
  clean : (r ∈ s.pool → s.IsClean r) → t.IsClean r
  others : ∀ x, x ≠ r → t.entries x = s.entries x

theorem Holds.allocated_not_mem (h : s.Holds rs) : s.allocated ∉ rs :=
  fun hmem => Nat.lt_irrefl _ (h.known _ hmem)

theorem Stocked.allocated_not_mem (h : s.Stocked rs) : s.allocated ∉ s.pool :=
  fun hmem => Nat.lt_irrefl _ (h.known _ hmem)

section Got
variable {t : StalledConnections} {r : EntryId}

theorem Stocked.outside (hstock : s.Stocked rs) (h : s.Holds rs)
    (hsource : r ∈ s.pool ∧ t.allocated = s.allocated ∨
      r = s.allocated ∧ t.allocated = s.allocated + 1) : r ∉ rs := by
  rcases hsource with ⟨hmem, -⟩ | ⟨rfl, -⟩
  · exact hstock.apart r hmem
  · exact h.allocated_not_mem

theorem Got.known (hgot : Got rs r s t) (hstock : s.Stocked rs) :
    r < t.allocated ∧ s.allocated ≤ t.allocated := by
  rcases hgot.source with ⟨hmem, heq⟩ | ⟨rfl, heq⟩
  · rw [heq]
    exact ⟨hstock.known r hmem, le_rfl⟩
  · rw [heq]
    exact ⟨Nat.lt_succ_self _, Nat.le_succ _⟩

theorem Got.mem_pool (hgot : Got rs r s t) (hstock : s.Stocked rs) {x : EntryId}
    (hx : x ∈ t.pool) : x ∈ s.pool ∧ x ≠ r := by
  rw [hgot.pool] at hx
  exact (hstock.nodup.mem_erase_iff.mp hx).symm

end Got

theorem rent_got (h : s.Holds rs) (hstock : s.Stocked rs) (pick : ℕ) :
    ∃ r t, s.rent pick = (r, t) ∧ t.Holds rs ∧ t.pool = s.pool.erase r ∧
      (r ∈ s.pool ∧ t.allocated = s.allocated ∨ r = s.allocated ∧ t.allocated = s.allocated + 1) ∧
      ((r ∈ s.pool → s.IsClean r) → t.IsClean r) ∧ ∀ x, x ≠ r → t.entries x = s.entries x := by
  unfold rent
  cases hpick : s.pool[pick % s.pool.length]? with
  | some r =>
    have hmem : r ∈ s.pool := List.mem_of_getElem? hpick
    exact ⟨r, _, rfl, ⟨h.chain, h.known, h.held⟩, rfl, .inl ⟨hmem, rfl⟩, fun hclean => hclean hmem,
      fun _ _ => rfl⟩
  | none =>
    have hset := h.set h.allocated_not_mem { cts := s.sources }
    refine ⟨s.allocated, _, rfl, ⟨hset.chain, fun r hr => ?_, hset.held⟩, ?_, .inr ⟨rfl, rfl⟩,
      fun _ => ?_, fun x hx => ?_⟩
    · exact Nat.lt_succ_of_lt (h.known r hr)
    · exact (List.erase_of_not_mem hstock.allocated_not_mem).symm
    · simp [IsClean, next, previous, set]
    · simp [set, hx]

theorem get_got (h : s.Holds rs) (hstock : s.Stocked rs) (pick : ℕ) :
    ∃ r t, s.get pick = (r, t) ∧ Got rs r s t := by
  obtain ⟨r, u, hrent, hholds, hpool, hsource, hclean, hothers⟩ := rent_got h hstock pick
  have hr : r ∉ rs := hstock.outside h hsource
  have hreset : (u.reset r).Holds rs ∧ (u.reset r).pool = u.pool ∧
      (u.reset r).allocated = u.allocated ∧ (u.reset r).next r = u.next r ∧
      (u.reset r).previous r = u.previous r ∧
      ∀ x, x ≠ r → (u.reset r).entries x = u.entries x := by
    unfold reset
    split_ifs
    · have hset := hholds.set hr { u.entries r with cts := u.sources }
      exact ⟨⟨hset.chain, hset.known, hset.held⟩, rfl, rfl, by simp [next, set],
        by simp [previous, set], fun x hx => set_entries_of_ne hx _ _⟩
    · exact ⟨hholds, rfl, rfl, rfl, rfl, fun _ _ => rfl⟩
  obtain ⟨hholds', hpool', hallocated, hnext, hprevious, hothers'⟩ := hreset
  refine ⟨r, (u.reset r).bind r, by rw [get, hrent], hholds'.set hr _, ?_, ?_, ?_, ?_, fun x hx => ?_⟩
  · exact hpool'.trans hpool
  · simpa [bind, hallocated] using hsource
  · simp [bind]
  · intro hbefore
    obtain ⟨hn, hp⟩ := hclean hbefore
    refine ⟨?_, ?_⟩
    · rw [← hn, ← hnext]
      simp [bind, next]
    · rw [← hp, ← hprevious]
      simp [bind, previous]
  · rw [bind, set_entries_of_ne hx, hothers' x hx, hothers x hx]

theorem Holds.returnToPool (h : s.Holds rs) {r : EntryId} (hbound : (s.entries r).bound = true) :
    s.returnToPool r = .ok { s with pool := r :: s.pool } ∧
      ({ s with pool := r :: s.pool } : StalledConnections).Holds rs := by
  refine ⟨?_, h.chain, h.known, h.held⟩
  unfold StalledConnections.returnToPool
  rw [if_neg (by simp [hbound])]

theorem clear_clean (r : EntryId) (s : StalledConnections) : (s.clear r).IsClean r := by
  simp [clear, IsClean, next, previous]

theorem IsClean.of_entries {t : StalledConnections} {r : EntryId} (h : s.IsClean r)
    (hentries : t.entries r = s.entries r) : t.IsClean r := by
  unfold IsClean next previous at h ⊢
  rwa [hentries]

end StalledConnections

end DecodingProxy.Tcp
