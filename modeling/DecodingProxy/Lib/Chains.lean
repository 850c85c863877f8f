import Mathlib.Data.List.Chain
import Mathlib.Data.List.Nodup
import Mathlib.Tactic.Common

/-!
# Doubly linked lists in a heap

The links are two functions on references. A chain is a list of references that the links
connect in both directions, where nothing is said about what the first one has before it. The
rules say what a change of the links makes of a chain, from the values of the new links on the
references of the chain alone.
-/

namespace DecodingProxy.Chains

variable {ρ : Type*}

/-- The references met from `r` on, at most `n` of them. -/
def follow (next : ρ → Option ρ) : ℕ → Option ρ → List ρ
  | 0, _ => []
  | _ + 1, none => []
  | n + 1, some r => r :: follow next n (next r)

/-- The last reference, if a walk meets it among the first `n`. -/
def last (next : ρ → Option ρ) : ℕ → ρ → Option ρ
  | 0, _ => none
  | n + 1, r =>
    match next r with
    | none => some r
    | some r' => last next n r'

def Linked (next previous : ρ → Option ρ) (a b : ρ) : Prop := next a = some b ∧ previous b = some a

structure Chain (next previous : ρ → Option ρ) (head : Option ρ) (rs : List ρ) : Prop where
  head : head = rs.head?
  linked : rs.IsChain (Linked next previous)
  ends : ∀ r ∈ rs.getLast?, next r = none
  nodup : rs.Nodup

variable {next previous next' previous' : ρ → Option ρ} {head : Option ρ} {rs : List ρ}

theorem chain_nil : Chain next previous none [] :=
  ⟨rfl, List.isChain_nil, by simp, List.nodup_nil⟩

theorem chain_singleton {r : ρ} (h : next r = none) : Chain next previous (some r) [r] :=
  ⟨rfl, List.isChain_singleton r, by simp [h], List.nodup_singleton r⟩

theorem Chain.tail {a : ρ} (h : Chain next previous head (a :: rs)) :
    Chain next previous (next a) rs := by
  obtain ⟨hfirst, hlinked⟩ := List.isChain_cons.mp h.linked
  refine ⟨?_, hlinked, fun r hr => h.ends r ?_, h.nodup.of_cons⟩
  · cases rs with
    | nil => exact h.ends a (by simp)
    | cons b rs => exact (hfirst b rfl).1
  · cases rs with
    | nil => cases hr
    | cons b rs => rwa [List.getLast?_cons_cons]

theorem Chain.follow_eq (h : Chain next previous head rs) {n : ℕ} (hn : rs.length ≤ n) :
    follow next n head = rs := by
  induction rs generalizing n head with
  | nil =>
    rw [h.head]
    cases n <;> rfl
  | cons a rs ih =>
    obtain ⟨n, rfl⟩ : ∃ m, n = m + 1 := ⟨n - 1, by rw [List.length_cons] at hn; omega⟩
    rw [h.head, List.head?_cons, follow, ih h.tail (Nat.le_of_succ_le_succ hn)]

theorem Chain.last_eq {a : ρ} (h : Chain next previous (some a) rs) {n : ℕ} (hn : rs.length ≤ n) :
    last next n a = rs.getLast? := by
  induction rs generalizing n a with
  | nil => cases h.head
  | cons b rs ih =>
    obtain ⟨n, rfl⟩ : ∃ m, n = m + 1 := ⟨n - 1, by rw [List.length_cons] at hn; omega⟩
    obtain rfl : a = b := Option.some.inj h.head
    have htail := h.tail
    rw [last]
    cases hnext : next a with
    | none =>
      rw [hnext] at htail
      obtain rfl : rs = [] := List.head?_eq_none_iff.mp htail.head.symm
      rfl
    | some c =>
      rw [hnext] at htail
      have hne : rs ≠ [] := by
        rintro rfl
        cases htail.head
      rw [List.getLast?_cons_of_ne_nil hne]
      exact ih htail (Nat.le_of_succ_le_succ hn)

/-- Links that agree on the chain; the one before the first reference is not looked at. -/
theorem Chain.congr (h : Chain next previous head rs) (hnext : ∀ r ∈ rs, next' r = next r)
    (hprevious : ∀ r ∈ rs.tail, previous' r = previous r) : Chain next' previous' head rs := by
  refine ⟨h.head, ?_, fun r hr => ?_, h.nodup⟩
  · apply h.linked.imp_of_mem_tail_imp
    intro a b ha hb hab
    exact ⟨(hnext a ha).trans hab.1, (hprevious b hb).trans hab.2⟩
  · rw [hnext r (List.mem_of_getLast? hr)]
    exact h.ends r hr

theorem Chain.push {l r : ρ} (h : Chain next previous head rs) (hl : rs.getLast? = some l)
    (hr : r ∉ rs) (hnext : ∀ x ∈ rs, x ≠ l → next' x = next x) (hlast : next' l = some r)
    (hend : next' r = none) (hprevious : ∀ x ∈ rs, previous' x = previous x)
    (hback : previous' r = some l) : Chain next' previous' head (rs ++ [r]) := by
  obtain ⟨as, rfl⟩ : ∃ as, rs = as ++ [l] := by
    rw [List.getLast?_eq_some_iff] at hl
    exact hl
  have hnodup := h.nodup
  refine ⟨?_, ?_, by simp [hend], ?_⟩
  · rw [h.head]
    cases as <;> rfl
  · rw [List.append_assoc, List.singleton_append, List.isChain_append_cons_cons]
    refine ⟨?_, ⟨hlast, hback⟩, List.isChain_singleton r⟩
    apply h.linked.imp_of_mem_imp
    intro a b ha hb hab
    have hne : a ≠ l := by
      rintro rfl
      have hnone := h.ends a (by simp)
      rw [hab.1] at hnone
      cases hnone
    exact ⟨(hnext a ha hne).trans hab.1, (hprevious b hb).trans hab.2⟩
  · exact List.nodup_append.mpr ⟨hnodup, List.nodup_singleton r, by
      rintro x hx y hy rfl
      exact hr (List.mem_singleton.mp hy ▸ hx)⟩

/-- With nothing before the first reference, the links walked backwards are a chain as well. -/
theorem Chain.reverse (h : Chain next previous head rs)
    (hfirst : ∀ r ∈ rs.head?, previous r = none) :
    Chain previous next rs.getLast? rs.reverse := by
  refine ⟨List.head?_reverse.symm, ?_, fun r hr => ?_, List.nodup_reverse.mpr h.nodup⟩
  · refine List.isChain_reverse.mpr (h.linked.imp fun a b hab => ?_)
    exact ⟨hab.2, hab.1⟩
  · rw [List.getLast?_reverse] at hr
    exact hfirst r hr

/-! ### Taking out a reference behind another one -/

theorem Chain.around {as bs : List ρ} {a r b : ρ}
    (h : Chain next previous head (as ++ a :: r :: b :: bs)) :
    previous r = some a ∧ next r = some b := by
  obtain ⟨-, har, hrest⟩ := List.isChain_append_cons_cons.mp h.linked
  exact ⟨har.2, ((List.isChain_cons.mp hrest).1 b rfl).1⟩

theorem Chain.at_end {as : List ρ} {a r : ρ} (h : Chain next previous head (as ++ [a, r])) :
    previous r = some a ∧ next r = none := by
  obtain ⟨-, har, -⟩ := List.isChain_append_cons_cons.mp h.linked
  exact ⟨har.2, h.ends r (by simp)⟩

/-- The links up to `a` when only the one behind it has changed. -/
theorem linked_up_to {as : List ρ} {a r : ρ} (hlinked : (as ++ [a]).IsChain (Linked next previous))
    (hr : r ∉ as ++ [a]) (har : next a = some r) (hnext : ∀ x ∈ as, next' x = next x)
    (hprevious : ∀ x ∈ as ++ [a], previous' x = previous x) :
    (as ++ [a]).IsChain (Linked next' previous') := by
  apply hlinked.imp_of_mem_imp
  intro x y hx hy hxy
  rcases List.mem_append.mp hx with hx | hx
  · exact ⟨(hnext x hx).trans hxy.1, (hprevious y hy).trans hxy.2⟩
  · obtain rfl := List.mem_singleton.mp hx
    obtain rfl : r = y := Option.some.inj (har.symm.trans hxy.1)
    exact absurd hy hr

theorem Chain.unlink {as bs : List ρ} {a r b : ρ}
    (h : Chain next previous head (as ++ a :: r :: b :: bs))
    (hnext : ∀ x ∈ as ++ b :: bs, next' x = next x) (ha : next' a = some b)
    (hprevious : ∀ x ∈ as ++ a :: bs, previous' x = previous x) (hb : previous' b = some a) :
    Chain next' previous' head (as ++ a :: b :: bs) := by
  obtain ⟨hfront, har, hrest⟩ := List.isChain_append_cons_cons.mp h.linked
  have hr : r ∉ as ++ [a] := by
    have hnodup := h.nodup
    simp only [List.nodup_append, List.nodup_cons] at hnodup
    grind
  refine ⟨?_, List.isChain_append_cons_cons.mpr ⟨?_, ⟨ha, hb⟩, ?_⟩, fun x hx => ?_, ?_⟩
  · rw [h.head]
    cases as <;> rfl
  · refine linked_up_to hfront hr har.1 (fun x hx => hnext x (by simp [hx])) fun x hx => ?_
    exact hprevious x (by simpa [or_assoc, or_left_comm] using Or.inl (List.mem_append.mp hx))
  · refine (List.isChain_cons.mp hrest).2.imp_of_mem_tail_imp fun x y hx hy hxy => ?_
    refine ⟨(hnext x (List.mem_append_right as hx)).trans hxy.1, (hprevious y ?_).trans hxy.2⟩
    exact List.mem_append_right as (List.mem_cons_of_mem a hy)
  · have hmem : x ∈ (b :: bs).getLast? := by
      rwa [List.getLast?_append_of_ne_nil _ (by simp), List.getLast?_cons_cons] at hx
    rw [hnext x (List.mem_append_right as (List.mem_of_getLast? hmem))]
    apply h.ends x
    rwa [List.getLast?_append_of_ne_nil _ (by simp), List.getLast?_cons_cons,
      List.getLast?_cons_cons]
  · refine h.nodup.sublist (List.Sublist.append_left ?_ as)
    exact (List.sublist_cons_self r (b :: bs)).cons_cons a

theorem Chain.cut {as : List ρ} {a r : ρ} (h : Chain next previous head (as ++ [a, r]))
    (hnext : ∀ x ∈ as, next' x = next x) (ha : next' a = none)
    (hprevious : ∀ x ∈ as ++ [a], previous' x = previous x) :
    Chain next' previous' head (as ++ [a]) := by
  obtain ⟨hfront, har, -⟩ := List.isChain_append_cons_cons.mp h.linked
  have hr : r ∉ as ++ [a] := by
    have hnodup := h.nodup
    simp only [List.nodup_append, List.nodup_cons] at hnodup
    grind
  refine ⟨?_, linked_up_to hfront hr har.1 hnext hprevious, by simp [ha], ?_⟩
  · rw [h.head]
    cases as <;> rfl
  · refine h.nodup.sublist (List.Sublist.append_left ?_ as)
    exact (List.sublist_cons_self r []).cons_cons a

end DecodingProxy.Chains
