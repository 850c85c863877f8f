import DecodingProxy.Lib.Bits
import Mathlib.Data.List.Nodup

/-!
# Prefix codes

Symbols are written as words none of which begins another one. A string is then read in one way
only, up to a tail no word begins. A code is complete when nothing but the beginning of a word can
be such a tail.

Binary words are given as numbers with their widths. Brought to one width they are intervals, and
when these tile all numbers of this width the words are a complete prefix code. Whether sorted
words tile is one pass over them.
-/

namespace DecodingProxy.PrefixCodes
open DecodingProxy.Bits

structure PrefixCode (σ α : Type*) where
  code : σ → List α
  nonempty : ∀ s, code s ≠ []
  prefixFree : ∀ s t, code s <+: code t → s = t

namespace PrefixCode

variable {σ α : Type*} {c : PrefixCode σ α} {s t : σ} {ss ss' : List σ} {l tail tail' : List α}

def write (c : PrefixCode σ α) (ss : List σ) : List α := ss.flatMap c.code

@[simp] theorem write_nil : c.write [] = [] := rfl

@[simp] theorem write_cons : c.write (s :: ss) = c.code s ++ c.write ss := rfl

@[simp] theorem write_append : c.write (ss ++ ss') = c.write ss ++ c.write ss' :=
  List.flatMap_append

theorem eq_of_prefix (hs : c.code s <+: l) (ht : c.code t <+: l) : s = t := by
  rcases List.prefix_or_prefix_of_prefix hs ht with h | h
  · exact c.prefixFree s t h
  · exact (c.prefixFree t s h).symm

/-- `l` is the words of `ss` and a tail in front of which no word stands. -/
structure Parse (c : PrefixCode σ α) (l : List α) (ss : List σ) (tail : List α) : Prop where
  eq : l = c.write ss ++ tail
  ended : ∀ s, ¬ c.code s <+: tail

theorem Parse.nil (h : ∀ s, ¬ c.code s <+: tail) : c.Parse tail [] tail := ⟨rfl, h⟩

theorem Parse.cons (h : c.Parse l ss tail) (s : σ) : c.Parse (c.code s ++ l) (s :: ss) tail :=
  ⟨by rw [h.eq, write_cons, List.append_assoc], h.ended⟩

theorem Parse.append (h : c.Parse l ss tail) (before : List σ) :
    c.Parse (c.write before ++ l) (before ++ ss) tail :=
  ⟨by rw [h.eq, write_append, List.append_assoc], h.ended⟩

theorem Parse.unique (h : c.Parse l ss tail) (h' : c.Parse l ss' tail') :
    ss = ss' ∧ tail = tail' := by
  induction ss generalizing l ss' with
  | nil =>
    cases ss' with
    | nil => exact ⟨rfl, h.eq.symm.trans h'.eq⟩
    | cons s' ss' =>
      refine absurd ?_ (h.ended s')
      rw [← show l = tail from h.eq, h'.eq, write_cons, List.append_assoc]
      exact List.prefix_append _ _
  | cons s ss ih =>
    have hs : c.code s <+: l := by
      rw [h.eq, write_cons, List.append_assoc]
      exact List.prefix_append _ _
    cases ss' with
    | nil => exact absurd (by rwa [← show l = tail' from h'.eq]) (h'.ended s)
    | cons s' ss' =>
      have hs' : c.code s' <+: l := by
        rw [h'.eq, write_cons, List.append_assoc]
        exact List.prefix_append _ _
      obtain rfl := c.eq_of_prefix hs hs'
      have heq : c.write ss ++ tail = c.write ss' ++ tail' := by
        simpa using h.eq.symm.trans h'.eq
      obtain ⟨rfl, rfl⟩ := ih ⟨rfl, h.ended⟩ ⟨heq, h'.ended⟩
      exact ⟨rfl, rfl⟩

theorem exists_parse (c : PrefixCode σ α) (l : List α) : ∃ ss tail, c.Parse l ss tail := by
  induction hn : l.length using Nat.strong_induction_on generalizing l with
  | _ n ih =>
    by_cases hs : ∃ s, c.code s <+: l
    · obtain ⟨s, rest, rfl⟩ := hs
      have hpos : 0 < (c.code s).length := List.length_pos_iff.mpr (c.nonempty s)
      rw [List.length_append] at hn
      obtain ⟨ss, tail, h⟩ := ih rest.length (by omega) rest rfl
      exact ⟨s :: ss, tail, h.cons s⟩
    · exact ⟨[], l, .nil fun s h => hs ⟨s, h⟩⟩

def Complete (c : PrefixCode σ α) : Prop :=
  ∀ l, (∃ s, c.code s <+: l) ∨ ∃ s, l <+: c.code s

end PrefixCode

/-- The words, brought to the width `W`, fill the numbers from `a` to `b` one behind the other. -/
def Tiles (W : ℕ) : ℕ → List (ℕ × ℕ) → ℕ → Prop
  | a, [], b => a = b
  | a, (v, w) :: l, b => (w ≤ W ∧ v * 2 ^ (W - w) = a) ∧ Tiles W (a + 2 ^ (W - w)) l b

def Tiles.decide (W : ℕ) : (a : ℕ) → (l : List (ℕ × ℕ)) → (b : ℕ) → Decidable (Tiles W a l b)
  | a, [], b => inferInstanceAs (Decidable (a = b))
  | a, (v, w) :: l, b =>
    have := Tiles.decide W (a + 2 ^ (W - w)) l b
    inferInstanceAs (Decidable ((w ≤ W ∧ v * 2 ^ (W - w) = a) ∧ Tiles W (a + 2 ^ (W - w)) l b))

instance (W a : ℕ) (l : List (ℕ × ℕ)) (b : ℕ) : Decidable (Tiles W a l b) := Tiles.decide W a l b

/-- The numbers of `W` bits that begin with a word. -/
def Covers (W : ℕ) (word : ℕ × ℕ) (n : ℕ) : Prop :=
  word.1 * 2 ^ (W - word.2) ≤ n ∧ n < (word.1 + 1) * 2 ^ (W - word.2)

namespace Tiles

variable {W a b n : ℕ} {l : List (ℕ × ℕ)} {word word' : ℕ × ℕ}

theorem le (h : Tiles W a l b) : a ≤ b := by
  induction l generalizing a with
  | nil => exact h.le
  | cons word l ih => exact (Nat.le_add_right _ _).trans (ih h.2)

theorem width_le (h : Tiles W a l b) (hmem : word ∈ l) : word.2 ≤ W := by
  induction l generalizing a with
  | nil => cases hmem
  | cons first l ih =>
    rcases List.mem_cons.mp hmem with rfl | hmem
    · exact h.1.1
    · exact ih h.2 hmem

theorem range (h : Tiles W a l b) (hmem : word ∈ l) (hn : Covers W word n) : a ≤ n ∧ n < b := by
  induction l generalizing a with
  | nil => cases hmem
  | cons first l ih =>
    obtain ⟨⟨hw, ha⟩, hrest⟩ := h
    rcases List.mem_cons.mp hmem with rfl | hmem
    · obtain ⟨hl, hu⟩ := hn
      have := hrest.le
      rw [Nat.add_mul, one_mul, ha] at hu
      exact ⟨ha ▸ hl, hu.trans_le this⟩
    · exact ⟨(Nat.le_add_right _ _).trans (ih hrest hmem).1, (ih hrest hmem).2⟩

theorem exists_covers (h : Tiles W a l b) (ha : a ≤ n) (hb : n < b) :
    ∃ word ∈ l, Covers W word n := by
  induction l generalizing a with
  | nil =>
    have hab : a = b := h
    omega
  | cons first l ih =>
    obtain ⟨⟨hw, hfirst⟩, hrest⟩ := h
    rcases Nat.lt_or_ge n (a + 2 ^ (W - first.2)) with hn | hn
    · refine ⟨first, by simp, ?_, ?_⟩
      · exact hfirst ▸ ha
      · rw [Nat.add_mul, one_mul]
        exact hfirst ▸ hn
    · obtain ⟨word, hmem, hword⟩ := ih hrest hn
      exact ⟨word, by simp [hmem], hword⟩

theorem eq_of_covers (h : Tiles W a l b) (hmem : word ∈ l) (hmem' : word' ∈ l)
    (hn : Covers W word n) (hn' : Covers W word' n) : word = word' := by
  induction l generalizing a with
  | nil => cases hmem
  | cons first l ih =>
    obtain ⟨⟨hw, ha⟩, hrest⟩ := h
    have hfirst : Covers W first n → n < a + 2 ^ (W - first.2) := by
      rintro ⟨-, hu⟩
      rw [Nat.add_mul, one_mul, ha] at hu
      exact hu
    rcases List.mem_cons.mp hmem with rfl | hlater <;>
      rcases List.mem_cons.mp hmem' with rfl | hlater'
    · rfl
    · exact absurd (hrest.range hlater' hn').1 (Nat.not_le.mpr (hfirst hn))
    · exact absurd (hrest.range hlater hn).1 (Nat.not_le.mpr (hfirst hn'))
    · exact ih hrest hlater hlater'

theorem covers_start (word : ℕ × ℕ) : Covers W word (word.1 * 2 ^ (W - word.2)) := by
  refine ⟨le_rfl, ?_⟩
  have := Nat.two_pow_pos (W - word.2)
  rw [Nat.add_mul]
  omega

theorem nodup (h : Tiles W a l b) : l.Nodup := by
  induction l generalizing a with
  | nil => exact List.nodup_nil
  | cons first l ih =>
    obtain ⟨⟨hw, ha⟩, hrest⟩ := h
    refine List.nodup_cons.mpr ⟨fun hmem => ?_, ih hrest⟩
    have hlow := (hrest.range hmem (covers_start first)).1
    have := Nat.two_pow_pos (W - first.2)
    rw [ha] at hlow
    omega

end Tiles

/-- The words fill all numbers of `W` bits. -/
structure TilesAll (W : ℕ) (l : List (ℕ × ℕ)) : Prop where
  tiles : Tiles W 0 l (2 ^ W)

instance (W : ℕ) (l : List (ℕ × ℕ)) : Decidable (TilesAll W l) :=
  decidable_of_iff (Tiles W 0 l (2 ^ W)) ⟨TilesAll.mk, TilesAll.tiles⟩

namespace TilesAll

variable {W n : ℕ} {l : List (ℕ × ℕ)} {word word' : ℕ × ℕ}

/-- A word is a number of its width. -/
theorem value_lt (h : TilesAll W l) (hmem : word ∈ l) : word.1 < 2 ^ word.2 := by
  have hlt := (h.tiles.range hmem (Tiles.covers_start word)).2
  have hpow : 2 ^ W = 2 ^ word.2 * 2 ^ (W - word.2) := by
    rw [← pow_add, Nat.add_sub_cancel' (h.tiles.width_le hmem)]
  rw [hpow] at hlt
  exact Nat.lt_of_mul_lt_mul_right hlt

theorem covers_iff (h : TilesAll W l) (hmem : word ∈ l) (hn : n < 2 ^ W) :
    Covers W word n ↔ bits word.2 word.1.testBit <+: bits W n.testBit :=
  (bits_prefix_iff (h.tiles.width_le hmem) (h.value_lt hmem) hn).symm

theorem exists_prefix (h : TilesAll W l) {string : List Bool} (hlen : string.length = W) :
    ∃ word ∈ l, bits word.2 word.1.testBit <+: string := by
  obtain ⟨n, hn, hstring⟩ := exists_bits string
  rw [hlen] at hn hstring
  obtain ⟨word, hmem, hcovers⟩ := h.tiles.exists_covers (Nat.zero_le n) hn
  exact ⟨word, hmem, hstring ▸ (h.covers_iff hmem hn).mp hcovers⟩

theorem eq_of_prefix (h : TilesAll W l) (hmem : word ∈ l) (hmem' : word' ∈ l)
    (hpre : bits word.2 word.1.testBit <+: bits word'.2 word'.1.testBit) : word = word' := by
  -- a number that begins with the longer word begins with both
  have hn := (h.tiles.range hmem' (Tiles.covers_start word')).2
  have hword' := Tiles.covers_start (W := W) word'
  exact h.tiles.eq_of_covers hmem hmem'
    ((h.covers_iff hmem hn).mpr (hpre.trans ((h.covers_iff hmem' hn).mp hword'))) hword'

end TilesAll

/-- The code whose words in some order tile the numbers of a width. -/
def ofTiles {words sorted : List (ℕ × ℕ)} {W n : ℕ} (hlen : words.length = n)
    (hperm : sorted.Perm words) (htiles : TilesAll W sorted) (hpos : ∀ word ∈ words, word.2 ≠ 0) :
    PrefixCode (Fin n) Bool where
  code s := bits (words.get (s.cast hlen.symm)).2 (words.get (s.cast hlen.symm)).1.testBit
  nonempty s h := hpos _ (List.get_mem words (s.cast hlen.symm))
    ((length_bits _ _).symm.trans (congrArg List.length h))
  prefixFree s t h := by
    have heq := htiles.eq_of_prefix (hperm.mem_iff.mpr (List.get_mem words _))
      (hperm.mem_iff.mpr (List.get_mem words _)) h
    have hinj := List.nodup_iff_injective_get.mp (hperm.nodup_iff.mp htiles.tiles.nodup)
    have hval := Fin.val_eq_of_eq (hinj heq)
    rwa [Fin.val_cast, Fin.val_cast, Fin.val_inj] at hval

theorem ofTiles_complete {words sorted : List (ℕ × ℕ)} {W n : ℕ} {hlen : words.length = n}
    {hperm : sorted.Perm words} {htiles : TilesAll W sorted}
    {hpos : ∀ word ∈ words, word.2 ≠ 0} : (ofTiles hlen hperm htiles hpos).Complete := by
  intro l
  -- cut or filled up to the width, a string begins with a word
  have hwidth : ((l ++ List.replicate W false).take W).length = W := by simp
  obtain ⟨word, hmem, hpre⟩ := htiles.exists_prefix hwidth
  obtain ⟨i, rfl⟩ := List.mem_iff_get.mp (hperm.mem_iff.mp hmem)
  have hcode : (ofTiles hlen hperm htiles hpos).code (i.cast hlen) =
    bits (words.get i).2 (words.get i).1.testBit := rfl
  rcases List.prefix_or_prefix_of_prefix (hpre.trans (List.take_prefix _ _))
    (List.prefix_append l _) with h | h
  · exact .inl ⟨i.cast hlen, hcode ▸ h⟩
  · exact .inr ⟨i.cast hlen, hcode ▸ h⟩

end DecodingProxy.PrefixCodes
