import Mathlib.Data.List.Infix
import Mathlib.Tactic.Common

/-!
# Search with restarts

A search keeps how many symbols of the pattern it has matched, and starts again at a symbol that
does not go on. That is right for a pattern whose first symbol does not occur in it again: of
the prefixes of such a pattern, the text so far ends with at most one that is not empty. It is
right, too, where prefixes that end a longer prefix go on with the same symbol as that one: then a
symbol that ends the longest match ends the others.
-/

namespace DecodingProxy.Searches

variable {α : Type*} {p text : List α} {b : α} {n : ℕ}

/-- Of the proper prefixes of `p`, those of length `n` and `0` stand at the end of `text`. -/
def Matched (p text : List α) (n : ℕ) : Prop :=
  n < p.length ∧ ∀ m < p.length, p.take m <:+ text ↔ m = n ∨ m = 0

def FirstOnce (p : List α) : Prop := ∀ n, 0 < n → ∀ a ∈ p[n]?, a ∉ p[0]?

theorem firstOnce_cons {a : α} (h : a ∉ p) : FirstOnce (a :: p) := by
  intro n hn x hx hfirst
  obtain ⟨m, rfl⟩ : ∃ m, n = m + 1 := ⟨n - 1, by omega⟩
  obtain rfl : a = x := Option.some.inj hfirst
  exact h (List.mem_of_getElem? hx)

theorem matched_nil (hp : p ≠ []) : Matched p [] 0 := by
  refine ⟨List.length_pos_of_ne_nil hp, fun m hm => ?_⟩
  rw [List.suffix_nil, List.take_eq_nil_iff]
  simp [hp]

theorem take_succ_suffix_concat {m : ℕ} (hm : m < p.length) :
    p.take (m + 1) <:+ text ++ [b] ↔ p.take m <:+ text ∧ p[m]? = some b := by
  rw [List.take_add_one, List.getElem?_eq_getElem hm, Option.toList_some]
  constructor
  · rintro ⟨front, hfront⟩
    rw [← List.append_assoc] at hfront
    obtain ⟨hfront, hlast⟩ := List.append_inj' hfront rfl
    exact ⟨⟨front, hfront⟩, congrArg some (List.singleton_inj.mp hlast)⟩
  · rintro ⟨⟨front, rfl⟩, hb⟩
    refine ⟨front, ?_⟩
    rw [Option.some.inj hb, List.append_assoc]

theorem Matched.take_succ_suffix (h : Matched p text n) {m : ℕ} (hm : m < p.length) :
    p.take (m + 1) <:+ text ++ [b] ↔ (m = n ∨ m = 0) ∧ p[m]? = some b := by
  rw [take_succ_suffix_concat hm, h.2 m hm]

theorem Matched.suffix_iff (h : Matched p text n) :
    p <:+ text ++ [b] ↔ n + 1 = p.length ∧ p[n]? = some b := by
  obtain ⟨m, hm⟩ : ∃ m, p.length = m + 1 := ⟨p.length - 1, by have hlt := h.1; omega⟩
  have hwhole : p.take (m + 1) = p := by rw [← hm, List.take_length]
  have hiff := h.take_succ_suffix (b := b) (m := m) (by omega)
  rw [hwhole] at hiff
  rw [hiff, hm]
  constructor
  · rintro ⟨rfl | rfl, hb⟩
    · exact ⟨rfl, hb⟩
    · have hn : n = 0 := by
        have hlt := h.1
        omega
      exact ⟨by rw [hn], hn ▸ hb⟩
  · rintro ⟨hn, hb⟩
    obtain rfl : n = m := Nat.succ.inj hn
    exact ⟨.inl rfl, hb⟩

theorem Matched.goOn (h : Matched p text n) (hp : FirstOnce p) (hb : p[n]? = some b)
    (hn : n + 1 < p.length) : Matched p (text ++ [b]) (n + 1) := by
  refine ⟨hn, fun m hm => ?_⟩
  cases m with
  | zero => simp
  | succ m =>
    rw [h.take_succ_suffix (Nat.lt_of_succ_lt hm)]
    constructor
    · rintro ⟨rfl | rfl, hmb⟩
      · exact .inl rfl
      · rcases Nat.eq_zero_or_pos n with rfl | hpos
        · exact .inl rfl
        · exact absurd hmb (hp n hpos b hb)
    · rintro (heq | heq)
      · obtain rfl : m = n := Nat.succ.inj heq
        exact ⟨.inl rfl, hb⟩
      · cases heq

theorem Matched.restart [DecidableEq α] (h : Matched p text n) (hb : p[n]? ≠ some b) :
    Matched p (text ++ [b]) (if p[0]? = some b then 1 else 0) := by
  refine ⟨?_, fun m hm => ?_⟩
  · have hlt := h.1
    split_ifs with hfirst
    · have hn : n ≠ 0 := by
        rintro rfl
        exact hb hfirst
      omega
    · omega
  · cases m with
    | zero => simp
    | succ m =>
      rw [h.take_succ_suffix (Nat.lt_of_succ_lt hm)]
      constructor
      · rintro ⟨rfl | rfl, hmb⟩
        · exact absurd hmb hb
        · exact .inl (by rw [if_pos hmb])
      · rintro (heq | heq)
        · split_ifs at heq with hfirst
          obtain rfl : m = 0 := Nat.succ.inj heq
          exact ⟨.inr rfl, hfirst⟩
        · cases heq

/-! ### The longest match -/

/-- Of the proper prefixes of `p` at the end of `text`, that of length `n` is the longest. -/
structure Longest (p text : List α) (n : ℕ) : Prop where
  lt : n < p.length
  here : p.take n <:+ text
  max : ∀ m < p.length, p.take m <:+ text → m ≤ n

/-- A prefix that ends a longer prefix goes on with the same symbol. -/
def BordersAgree (p : List α) : Prop :=
  ∀ n < p.length, ∀ m < n, 0 < m → p.take m <:+ p.take n → p[m]? = p[n]?

instance [DecidableEq α] : Decidable (BordersAgree p) :=
  inferInstanceAs (Decidable (∀ n < p.length, ∀ m < n, 0 < m → _ → _))

theorem longest_nil (hp : p ≠ []) : Longest p [] 0 where
  lt := List.length_pos_of_ne_nil hp
  here := List.suffix_rfl
  max := by
    intro m hm hsuffix
    rw [List.suffix_nil, List.take_eq_nil_iff] at hsuffix
    exact (hsuffix.resolve_right hp).le

theorem Longest.suffix_iff (h : Longest p text n) :
    p <:+ text ++ [b] ↔ n + 1 = p.length ∧ p[n]? = some b := by
  obtain ⟨m, hm⟩ : ∃ m, p.length = m + 1 := ⟨p.length - 1, by have hlt := h.lt; omega⟩
  have hiff : p.take (m + 1) <:+ text ++ [b] ↔ p.take m <:+ text ∧ p[m]? = some b :=
    take_succ_suffix_concat (by omega)
  rw [← hm, List.take_length] at hiff
  rw [hiff, hm]
  constructor
  · intro ⟨hsuffix, hb⟩
    have hle := h.max m (by omega) hsuffix
    have hlt := h.lt
    obtain rfl : m = n := by omega
    exact ⟨rfl, hb⟩
  · intro ⟨hn, hb⟩
    obtain rfl : n = m := Nat.succ.inj hn
    exact ⟨h.here, hb⟩

theorem Longest.goOn (h : Longest p text n) (hb : p[n]? = some b) (hn : n + 1 < p.length) :
    Longest p (text ++ [b]) (n + 1) where
  lt := hn
  here := (take_succ_suffix_concat h.lt).mpr ⟨h.here, hb⟩
  max := by
    intro m hm hsuffix
    cases m with
    | zero => exact Nat.zero_le _
    | succ m =>
      have hshort := (take_succ_suffix_concat (Nat.lt_of_succ_lt hm)).mp hsuffix
      exact Nat.succ_le_succ (h.max m (Nat.lt_of_succ_lt hm) hshort.1)

theorem Longest.restart [DecidableEq α] (h : Longest p text n) (hp : BordersAgree p)
    (hb : p[n]? ≠ some b) : Longest p (text ++ [b]) (if p[0]? = some b then 1 else 0) where
  lt := by
    have hlt := h.lt
    split_ifs with hfirst
    · have hn : n ≠ 0 := by
        intro hzero
        exact hb (hzero ▸ hfirst)
      omega
    · omega
  here := by
    split_ifs with hfirst
    · apply (take_succ_suffix_concat (Nat.zero_lt_of_lt h.lt)).mpr
      exact ⟨List.nil_suffix, hfirst⟩
    · exact List.nil_suffix
  max := by
    intro m hm hsuffix
    cases m with
    | zero => exact Nat.zero_le _
    | succ m =>
      obtain ⟨hshort, hmb⟩ := (take_succ_suffix_concat (Nat.lt_of_succ_lt hm)).mp hsuffix
      have hle := h.max m (Nat.lt_of_succ_lt hm) hshort
      have hne : m ≠ n := by
        intro heq
        exact hb (heq ▸ hmb)
      rcases Nat.eq_zero_or_pos m with rfl | hpos
      · rw [if_pos hmb]
      · have hborder : p.take m <:+ p.take n := by
          apply List.suffix_of_suffix_length_le hshort h.here
          simp only [List.length_take]
          omega
        exact absurd (hp n h.lt m (by omega) hpos hborder ▸ hmb) hb

/-! ### The first occurrence -/

/-- `p` stands at the end of the first `k` symbols, and of no fewer. -/
structure FirstEnd (p text : List α) (k : ℕ) : Prop where
  le : k ≤ text.length
  ends : p <:+ text.take k
  first : ∀ j < k, ¬ p <:+ text.take j

theorem FirstEnd.unique {j k : ℕ} (hj : FirstEnd p text j) (hk : FirstEnd p text k) : j = k := by
  rcases Nat.lt_trichotomy j k with hlt | heq | hlt
  · exact absurd hj.ends (hk.first j hlt)
  · exact heq
  · exact absurd hk.ends (hj.first k hlt)

theorem FirstEnd.infix {k : ℕ} (h : FirstEnd p text k) : p <:+: text :=
  h.ends.isInfix.trans (List.take_prefix k text).isInfix

theorem FirstEnd.append {k : ℕ} (h : FirstEnd p text k) (rest : List α) :
    FirstEnd p (text ++ rest) k where
  le := h.le.trans (by simp)
  ends := by
    rw [List.take_append_of_le_length h.le]
    exact h.ends
  first := by
    intro j hj
    rw [List.take_append_of_le_length (hj.le.trans h.le)]
    exact h.first j hj

theorem FirstEnd.cons {a : α} {k : ℕ} (h : FirstEnd p text k) (hnot : ¬ p <+: a :: text) :
    FirstEnd p (a :: text) (k + 1) where
  le := Nat.succ_le_succ h.le
  ends := h.ends.trans (List.suffix_cons a _)
  first := by
    intro j hj hsuffix
    cases j with
    | zero =>
      rw [List.take_zero, List.suffix_nil] at hsuffix
      exact hnot (hsuffix ▸ List.nil_prefix)
    | succ j =>
      rw [List.take_succ_cons, List.suffix_cons_iff] at hsuffix
      rcases hsuffix with heq | hsuffix
      · exact hnot (heq ▸ List.cons_prefix_cons.mpr ⟨rfl, List.take_prefix j text⟩)
      · exact h.first j (Nat.lt_of_succ_lt_succ hj) hsuffix

/-- An occurrence at the start is the first. -/
theorem firstEnd_of_prefix (h : p <+: text) : FirstEnd p text p.length where
  le := h.length_le
  ends := by
    rw [← List.prefix_iff_eq_take.mp h]
  first := by
    intro j hj hsuffix
    have hle := hsuffix.length_le.trans (List.length_take_le j text)
    omega

theorem infix_concat_iff : p <:+: text ++ [b] ↔ p <:+: text ∨ p <:+ text ++ [b] := by
  rw [List.infix_iff_suffix_prefix, List.infix_iff_suffix_prefix]
  simp only [List.prefix_concat_iff]
  constructor
  · intro ⟨t, hsuffix, hprefix⟩
    rcases hprefix with rfl | hprefix
    · exact .inr hsuffix
    · exact .inl ⟨t, hsuffix, hprefix⟩
  · intro h
    rcases h with ⟨t, hsuffix, hprefix⟩ | hsuffix
    · exact ⟨t, hsuffix, .inr hprefix⟩
    · exact ⟨_, hsuffix, .inl rfl⟩

/-- The symbol that makes the first occurrence ends it. -/
theorem firstEnd_concat (hnot : ¬ p <:+: text) (hends : p <:+ text ++ [b]) :
    FirstEnd p (text ++ [b]) (text.length + 1) where
  le := by simp
  ends := by
    rw [List.take_of_length_le (by simp)]
    exact hends
  first := by
    intro j hj hsuffix
    rw [List.take_append_of_le_length (by omega)] at hsuffix
    exact hnot (hsuffix.isInfix.trans (List.take_prefix j text).isInfix)

end DecodingProxy.Searches
