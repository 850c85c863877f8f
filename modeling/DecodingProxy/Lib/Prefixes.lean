import Mathlib.Data.List.Infix

/-!
# Strings of self-delimiting parts

Parts none of which is a proper prefix of another can be read off a string in one way
only, so a string has a longest prefix that consists of parts: the one after which no
part stands.
-/

namespace DecodingProxy.Prefixes

variable {α : Type*} {P : List α → Prop}

def PrefixFree (P : List α → Prop) : Prop := ∀ a b, P a → P b → a <+: b → a = b

/-- `l` is a concatenation of parts. -/
def Consists (P : List α → Prop) (l : List α) : Prop :=
  ∃ parts : List (List α), (∀ part ∈ parts, P part) ∧ l = parts.flatten

/-- The longest prefix of `data` that is a concatenation of parts. -/
def LongestPrefix (P : List α → Prop) (data l : List α) : Prop :=
  l <+: data ∧ Consists P l ∧ ∀ m, m <+: data → Consists P m → m <+: l

theorem PrefixFree.eq_of_prefix (hP : PrefixFree P) {a b l : List α} (ha : P a) (hb : P b)
    (hal : a <+: l) (hbl : b <+: l) : a = b := by
  rcases List.prefix_or_prefix_of_prefix hal hbl with h | h
  · exact hP a b ha hb h
  · exact (hP b a hb ha h).symm

/-- Where no part stands after the first parts, no longer prefix consists of parts. -/
theorem PrefixFree.longestPrefix (hP : PrefixFree P) {parts : List (List α)} {rest : List α}
    (hparts : ∀ part ∈ parts, P part) (hrest : ∀ part, P part → ¬ part <+: rest) :
    LongestPrefix P (parts.flatten ++ rest) parts.flatten := by
  refine ⟨List.prefix_append _ _, ⟨parts, hparts, rfl⟩, ?_⟩
  rintro m hm ⟨others, hothers, rfl⟩
  induction parts generalizing others with
  | nil =>
    cases others with
    | nil => simp
    | cons b others =>
      have hb : b <+: rest :=
        (List.prefix_append b others.flatten).trans (by simpa using hm)
      exact absurd hb (hrest b (hothers b (by simp)))
  | cons a parts ih =>
    cases others with
    | nil => simp
    | cons b others =>
      simp only [List.flatten_cons, List.append_assoc] at hm ⊢
      have hab : a = b :=
        hP.eq_of_prefix (hparts a (by simp)) (hothers b (by simp)) (List.prefix_append _ _)
          ((List.prefix_append _ _).trans hm)
      subst hab
      rw [List.prefix_append_right_inj] at hm ⊢
      exact ih (fun part h => hparts part (by simp [h])) others
        (fun part h => hothers part (by simp [h])) hm

/-- The parts are a prefix just when each one stands behind those before it. -/
theorem flatten_prefix_iff {parts : List (List α)} {l : List α} :
    parts.flatten <+: l ↔
      ∀ before part after, parts = before ++ part :: after →
        part <+: l.drop before.flatten.length := by
  constructor
  · rintro ⟨rest, hl⟩ before part after rfl
    rw [← hl, List.flatten_append, List.append_assoc, List.drop_left, List.flatten_cons,
      List.append_assoc]
    exact List.prefix_append _ _
  · intro h
    induction parts using List.reverseRecOn with
    | nil => exact List.nil_prefix
    | append_singleton parts part ih =>
      obtain ⟨rest, hrest⟩ := ih fun before c after hparts =>
        h before c (after ++ [part]) (by simp [hparts])
      have hlast := h parts part [] rfl
      rw [← hrest, List.drop_left] at hlast
      rw [← hrest, List.flatten_append, List.flatten_singleton]
      exact (List.prefix_append_right_inj _).mpr hlast

end DecodingProxy.Prefixes
