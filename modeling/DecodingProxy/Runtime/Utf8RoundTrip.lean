import DecodingProxy.Runtime.Strings
import Mathlib.Tactic.Ring

/-!
# `GetString` behind `GetBytes`

A string is well-formed if its surrogates stand in pairs. Its bytes are decoded to the string
again, and an ASCII byte in them is a code unit of the string.
-/

namespace DecodingProxy.Runtime

namespace Utf8

def isSurrogate (c : UInt16) : Bool := isHighSurrogate c || isLowSurrogate c

inductive WellFormed : Str → Prop
  | nil : WellFormed []
  | unit {c : UInt16} {s : Str} : isSurrogate c = false → WellFormed s → WellFormed (c :: s)
  | pair {c d : UInt16} {s : Str} : isHighSurrogate c = true → isLowSurrogate d = true →
    WellFormed s → WellFormed (c :: d :: s)

theorem isHighSurrogate_iff (c : UInt16) :
    isHighSurrogate c = true ↔ 0xD800 ≤ c.toNat ∧ c.toNat ≤ 0xDBFF := by
  simp [isHighSurrogate, UInt16.le_iff_toNat_le]

theorem isLowSurrogate_iff (c : UInt16) :
    isLowSurrogate c = true ↔ 0xDC00 ≤ c.toNat ∧ c.toNat ≤ 0xDFFF := by
  simp [isLowSurrogate, UInt16.le_iff_toNat_le]

theorem isSurrogate_false_iff (c : UInt16) :
    isSurrogate c = false ↔ c.toNat < 0xD800 ∨ 0xE000 ≤ c.toNat := by
  rw [← Bool.not_eq_true, isSurrogate, Bool.or_eq_true, isHighSurrogate_iff, isLowSurrogate_iff]
  omega

/-! ### One character -/

theorem toNat_ofNat_lt {n : ℕ} (h : n < 0x100) : (UInt8.ofNat n).toNat = n := by
  rw [UInt8.toNat_ofNat', Nat.mod_eq_of_lt h]

theorem step_tail {owed t : ℕ} {low high : UInt8} (value : ℕ) {tail : 0x80 ≤ low} (ht : t < 0x40)
    (hlow : low.toNat ≤ 0x80 + t) (hhigh : 0x80 + t ≤ high.toNat) :
    step (.inside owed low high value tail) (UInt8.ofNat (0x80 + t)) =
      if owed ≤ 1 then (.start, encodeUtf16 (value * 0x40 + t))
      else (.inside (owed - 1) 0x80 0xBF (value * 0x40 + t) (by decide), []) := by
  have hb := toNat_ofNat_lt (show 0x80 + t < 0x100 by omega)
  have hin : low ≤ UInt8.ofNat (0x80 + t) ∧ UInt8.ofNat (0x80 + t) ≤ high := by
    rw [UInt8.le_iff_toNat_le, UInt8.le_iff_toNat_le, hb]
    exact ⟨hlow, hhigh⟩
  have hvalue : (0x80 + t) % 0x40 = t := by omega
  rw [step, if_pos hin, hb, hvalue]

/-- The rest of a character of which a tail byte is owed last. -/
theorem decodeFrom_last {t : ℕ} {low high : UInt8} (value : ℕ) {tail : 0x80 ≤ low} (ht : t < 0x40)
    (hlow : low.toNat ≤ 0x80 + t) (hhigh : 0x80 + t ≤ high.toNat) (bytes : List UInt8) :
    decodeFrom (.inside 1 low high value tail) (UInt8.ofNat (0x80 + t) :: bytes) =
      encodeUtf16 (value * 0x40 + t) ++ getString bytes := by
  rw [decodeFrom_cons, step_tail value ht hlow hhigh]
  rfl

theorem decodeFrom_tail {owed t : ℕ} {low high : UInt8} (value : ℕ) {tail : 0x80 ≤ low}
    (howed : 1 < owed) (ht : t < 0x40) (hlow : low.toNat ≤ 0x80 + t)
    (hhigh : 0x80 + t ≤ high.toNat) (bytes : List UInt8) :
    decodeFrom (.inside owed low high value tail) (UInt8.ofNat (0x80 + t) :: bytes) =
      decodeFrom (.inside (owed - 1) 0x80 0xBF (value * 0x40 + t) (by decide)) bytes := by
  rw [decodeFrom_cons, step_tail value ht hlow hhigh, if_neg (Nat.not_le.mpr howed)]
  rfl

theorem getString_one {value : ℕ} (h : value < 0x80) (bytes : List UInt8) :
    getString (encodeValue value ++ bytes) = encodeUtf16 value ++ getString bytes := by
  have hbytes : encodeValue value = [UInt8.ofNat value] := by
    rw [encodeValue, if_pos h]
    simp [encodeBytes]
  have hfirst : first (UInt8.ofNat value) = (.start, [UInt16.ofNat value]) := by
    rw [first, if_pos (by rw [UInt8.lt_iff_toNat_lt, toNat_ofNat_lt (by omega)]; exact h)]
    congr 2
    apply UInt16.toNat_inj.mp
    rw [UInt8.toNat_toUInt16, toNat_ofNat_lt (by omega), UInt16.toNat_ofNat']
    omega
  rw [hbytes, List.cons_append, List.nil_append, getString, decodeFrom_cons, step, hfirst,
    encodeUtf16, if_pos (by omega)]
  rfl

theorem getString_two {value : ℕ} (hmin : 0x80 ≤ value) (h : value < 0x800)
    (bytes : List UInt8) :
    getString (encodeValue value ++ bytes) = encodeUtf16 value ++ getString bytes := by
  have hbytes : encodeValue value =
      [UInt8.ofNat (0xC0 + value / 0x40), UInt8.ofNat (0x80 + value % 0x40)] := by
    rw [encodeValue, if_neg (by omega), if_pos h]
    simp [encodeBytes, List.range_succ]
  have hlead := toNat_ofNat_lt (show 0xC0 + value / 0x40 < 0x100 by omega)
  have hfirst : first (UInt8.ofNat (0xC0 + value / 0x40)) =
      (.inside 1 0x80 0xBF (value / 0x40) (by decide), []) := by
    have hbits : (0xC0 + value / 0x40) % 0x20 = value / 0x40 := by omega
    simp only [first, UInt8.lt_iff_toNat_lt, hlead, hbits]
    rw [if_neg (by simp; omega), if_neg (by simp; omega), if_pos (by simp; omega)]
  have hvalue : value / 0x40 * 0x40 + value % 0x40 = value := by omega
  rw [hbytes, List.cons_append, List.cons_append, List.nil_append, getString, decodeFrom_cons, step,
    hfirst, decodeFrom_last _ (by omega) (by simp) (by simp; omega), hvalue]
  rfl

/-- The first byte of three narrows the range of the second. -/
theorem first_three {value : ℕ} (hmin : 0x800 ≤ value) (h : value < 0x10000)
    (hscalar : value < 0xD800 ∨ 0xE000 ≤ value) :
    ∃ low high tail, first (UInt8.ofNat (0xE0 + value / 0x1000)) =
        (.inside 2 low high (value / 0x1000) tail, []) ∧
      low.toNat ≤ 0x80 + value / 0x40 % 0x40 ∧ 0x80 + value / 0x40 % 0x40 ≤ high.toNat := by
  have hlead := toNat_ofNat_lt (show 0xE0 + value / 0x1000 < 0x100 by omega)
  have hbits : (0xE0 + value / 0x1000) % 0x10 = value / 0x1000 := by omega
  simp only [first, UInt8.lt_iff_toNat_lt, ← UInt8.toNat_inj, hlead, hbits]
  rw [if_neg (by simp; omega), if_neg (by simp; omega), if_neg (by simp)]
  by_cases hfirst : value / 0x1000 = 0
  · rw [if_pos (by simp; omega)]
    exact ⟨_, _, by decide, rfl, by simp; omega, by simp; omega⟩
  · rw [if_neg (by simp; omega)]
    by_cases hlast : value / 0x1000 = 0xD
    · rw [if_pos (by simp; omega)]
      exact ⟨_, _, by decide, rfl, by simp, by simp; omega⟩
    · rw [if_neg (by simp; omega), if_pos (by simp; omega)]
      exact ⟨_, _, by decide, rfl, by simp, by simp; omega⟩

theorem getString_three {value : ℕ} (hmin : 0x800 ≤ value) (h : value < 0x10000)
    (hscalar : value < 0xD800 ∨ 0xE000 ≤ value) (bytes : List UInt8) :
    getString (encodeValue value ++ bytes) = encodeUtf16 value ++ getString bytes := by
  have hbytes : encodeValue value =
      [UInt8.ofNat (0xE0 + value / 0x1000), UInt8.ofNat (0x80 + value / 0x40 % 0x40),
        UInt8.ofNat (0x80 + value % 0x40)] := by
    rw [encodeValue, if_neg (by omega), if_neg (by omega), if_pos h]
    simp [encodeBytes, List.range_succ]
  obtain ⟨low, high, tail, hfirst, hlow, hhigh⟩ := first_three hmin h hscalar
  have hvalue : (value / 0x1000 * 0x40 + value / 0x40 % 0x40) * 0x40 + value % 0x40 = value := by
    omega
  rw [hbytes, List.cons_append, List.cons_append, List.cons_append, List.nil_append, getString,
    decodeFrom_cons, step, hfirst, decodeFrom_tail _ (by omega) (by omega) hlow hhigh,
    decodeFrom_last _ (by omega) (by simp) (by simp; omega), hvalue]
  rfl

theorem first_four {value : ℕ} (hmin : 0x10000 ≤ value) (h : value < 0x110000) :
    ∃ low high tail, first (UInt8.ofNat (0xF0 + value / 0x40000)) =
        (.inside 3 low high (value / 0x40000) tail, []) ∧
      low.toNat ≤ 0x80 + value / 0x1000 % 0x40 ∧ 0x80 + value / 0x1000 % 0x40 ≤ high.toNat := by
  have hlead := toNat_ofNat_lt (show 0xF0 + value / 0x40000 < 0x100 by omega)
  have hbits : (0xF0 + value / 0x40000) % 0x08 = value / 0x40000 := by omega
  simp only [first, UInt8.lt_iff_toNat_lt, ← UInt8.toNat_inj, hlead, hbits]
  rw [if_neg (by simp; omega), if_neg (by simp; omega), if_neg (by simp; omega),
    if_neg (by simp; omega), if_neg (by simp; omega), if_neg (by simp)]
  by_cases hfirst : value / 0x40000 = 0
  · rw [if_pos (by simp; omega)]
    exact ⟨_, _, by decide, rfl, by simp; omega, by simp; omega⟩
  · rw [if_neg (by simp; omega)]
    by_cases hlast : value / 0x40000 = 4
    · rw [if_neg (by simp; omega), if_pos (by simp; omega)]
      exact ⟨_, _, by decide, rfl, by simp, by simp; omega⟩
    · rw [if_pos (by simp; omega)]
      exact ⟨_, _, by decide, rfl, by simp, by simp; omega⟩

theorem getString_four {value : ℕ} (hmin : 0x10000 ≤ value) (h : value < 0x110000)
    (bytes : List UInt8) :
    getString (encodeValue value ++ bytes) = encodeUtf16 value ++ getString bytes := by
  have hbytes : encodeValue value =
      [UInt8.ofNat (0xF0 + value / 0x40000), UInt8.ofNat (0x80 + value / 0x1000 % 0x40),
        UInt8.ofNat (0x80 + value / 0x40 % 0x40), UInt8.ofNat (0x80 + value % 0x40)] := by
    rw [encodeValue, if_neg (by omega), if_neg (by omega), if_neg (by omega)]
    simp [encodeBytes, List.range_succ]
  obtain ⟨low, high, tail, hfirst, hlow, hhigh⟩ := first_four hmin h
  have hvalue : ((value / 0x40000 * 0x40 + value / 0x1000 % 0x40) * 0x40 + value / 0x40 % 0x40) *
      0x40 + value % 0x40 = value := by
    omega
  rw [hbytes, List.cons_append, List.cons_append, List.cons_append, List.cons_append,
    List.nil_append, getString, decodeFrom_cons, step, hfirst,
    decodeFrom_tail _ (by omega) (by omega) hlow hhigh,
    decodeFrom_tail _ (by omega) (by omega) (by simp) (by simp; omega),
    decodeFrom_last _ (by omega) (by simp) (by simp; omega), hvalue]
  rfl

theorem getString_encodeValue {value : ℕ} (h : value < 0xD800 ∨ 0xE000 ≤ value)
    (hmax : value < 0x110000) (bytes : List UInt8) :
    getString (encodeValue value ++ bytes) = encodeUtf16 value ++ getString bytes := by
  rcases Nat.lt_or_ge value 0x80 with hone | hone
  · exact getString_one hone bytes
  rcases Nat.lt_or_ge value 0x800 with htwo | htwo
  · exact getString_two hone htwo bytes
  rcases Nat.lt_or_ge value 0x10000 with hthree | hthree
  · exact getString_three htwo hthree h bytes
  · exact getString_four hthree hmax bytes

/-! ### Strings -/

theorem getBytes_unit {c : UInt16} (hc : isSurrogate c = false) (s : Str) :
    getBytes (c :: s) = encodeValue c.toNat ++ getBytes s := by
  obtain ⟨hhigh, hlow⟩ := Bool.or_eq_false_iff.mp hc
  cases s with
  | nil => simp [getBytes, hhigh, hlow]
  | cons d s => simp [getBytes, hhigh, hlow]

theorem getBytes_pair {c d : UInt16} (hc : isHighSurrogate c = true)
    (hd : isLowSurrogate d = true) (s : Str) :
    getBytes (c :: d :: s) =
      encodeValue (0x10000 + (c.toNat - 0xD800) * 0x400 + (d.toNat - 0xDC00)) ++ getBytes s := by
  simp [getBytes, hc, hd]

theorem encodeUtf16_toNat (c : UInt16) : encodeUtf16 c.toNat = [c] := by
  rw [encodeUtf16, if_pos c.toNat_lt]
  simp

theorem encodeUtf16_pair {c d : UInt16} (hc : isHighSurrogate c = true)
    (hd : isLowSurrogate d = true) :
    encodeUtf16 (0x10000 + (c.toNat - 0xD800) * 0x400 + (d.toNat - 0xDC00)) = [c, d] := by
  rw [isHighSurrogate_iff] at hc
  rw [isLowSurrogate_iff] at hd
  have hfirst : UInt16.ofNat (0xD800 + (0x10000 + (c.toNat - 0xD800) * 0x400 +
      (d.toNat - 0xDC00) - 0x10000) / 0x400) = c := by
    apply UInt16.toNat_inj.mp
    rw [UInt16.toNat_ofNat']
    omega
  have hsecond : UInt16.ofNat (0xDC00 + (0x10000 + (c.toNat - 0xD800) * 0x400 +
      (d.toNat - 0xDC00) - 0x10000) % 0x400) = d := by
    apply UInt16.toNat_inj.mp
    rw [UInt16.toNat_ofNat']
    omega
  rw [encodeUtf16, if_neg (by omega), hfirst, hsecond]

theorem getString_getBytes {s : Str} (h : WellFormed s) : getString (getBytes s) = s := by
  induction h with
  | nil => rfl
  | @unit c s hc _ ih =>
    rw [getBytes_unit hc, getString_encodeValue ((isSurrogate_false_iff c).mp hc)
      (by have hlt := c.toNat_lt; omega), ih, encodeUtf16_toNat]
    rfl
  | @pair c d s hc hd _ ih =>
    have hhigh := (isHighSurrogate_iff c).mp hc
    have hlow := (isLowSurrogate_iff d).mp hd
    rw [getBytes_pair hc hd, getString_encodeValue (by omega) (by omega), ih,
      encodeUtf16_pair hc hd]
    rfl

/-- An ASCII byte stands for itself, whatever is in front of it. -/
theorem getString_append_cons {b : UInt8} (hb : b < 0x80) (bytes rest : List UInt8) :
    getString (bytes ++ b :: rest) = getString bytes ++ b.toUInt16 :: getString rest := by
  have hany : ∀ q, decodeFrom q (bytes ++ b :: rest) =
      decodeFrom q bytes ++ b.toUInt16 :: getString rest := by
    induction bytes with
    | nil =>
      intro q
      rw [List.nil_append, decodeFrom_cons, step_ascii hb, List.append_assoc]
      rfl
    | cons c bytes ih =>
      intro q
      rw [List.cons_append, decodeFrom_cons, ih, decodeFrom_cons, List.append_assoc]
  exact hany .start

/-! ### Bytes of an ASCII string -/

/-- Whatever the character becomes that the decoder is in, it is not an ASCII one. -/
def Large : State → Prop
  | .start => True
  | .inside owed low high value _ =>
    0 < owed ∧ high ≤ 0xBF ∧
      0x80 ≤ (value * 0x40 + (low.toNat - 0x80)) * 0x40 ^ (owed - 1) ∧
      (value * 0x40 + (high.toNat - 0x80) + 1) * 0x40 ^ (owed - 1) ≤ 0x110000

instance : DecidablePred Large
  | .start => inferInstanceAs (Decidable True)
  | .inside _ _ _ _ _ => inferInstanceAs (Decidable (_ ∧ _))

theorem first_large (b : UInt8) : Large (first b).1 := by
  have hall : ∀ n : Fin 256, Large (first (UInt8.ofNat n)).1 := by decide +kernel
  have hb := hall ⟨b.toNat, b.toNat_lt⟩
  rwa [UInt8.ofNat_toNat] at hb

theorem encodeUtf16_large {value : ℕ} (hl : 0x80 ≤ value) (hu : value < 0x110000) :
    ∃ u ∈ encodeUtf16 value, ¬ u < 0x80 := by
  have hlt : ∀ n : ℕ, 0x80 ≤ n → n < 0x10000 → ¬ UInt16.ofNat n < 0x80 := by
    intro n hn hn' h
    rw [UInt16.lt_iff_toNat_lt, UInt16.toNat_ofNat', Nat.mod_eq_of_lt hn'] at h
    exact absurd h (Nat.not_lt.mpr hn)
  unfold encodeUtf16
  by_cases hshort : value < 0x10000
  · rw [if_pos hshort]
    exact ⟨_, List.mem_cons_self, hlt value hl hshort⟩
  · rw [if_neg hshort]
    exact ⟨_, List.mem_cons_self, hlt _ (by omega) (by omega)⟩

/-- With a byte that goes on, the bounds of the character get closer. -/
theorem value_range {owed value : ℕ} {low high b : UInt8} {tail : 0x80 ≤ low}
    (h : Large (.inside owed low high value tail)) (hin : low ≤ b ∧ b ≤ high) :
    0x80 ≤ (value * 0x40 + b.toNat % 0x40) * 0x40 ^ (owed - 1) ∧
      (value * 0x40 + b.toNat % 0x40 + 1) * 0x40 ^ (owed - 1) ≤ 0x110000 := by
  obtain ⟨-, hhigh, hl, hu⟩ := h
  have hbl := UInt8.le_iff_toNat_le.mp hin.1
  have hbu := UInt8.le_iff_toNat_le.mp hin.2
  have htail : 0x80 ≤ low.toNat := UInt8.le_iff_toNat_le.mp tail
  have hhigh' : high.toNat ≤ 0xBF := UInt8.le_iff_toNat_le.mp hhigh
  have hmod : b.toNat % 0x40 = b.toNat - 0x80 := by omega
  rw [hmod]
  exact ⟨hl.trans (Nat.mul_le_mul_right _ (by omega)),
    (Nat.mul_le_mul_right _ (by omega)).trans hu⟩

theorem step_large {owed value : ℕ} {low high b : UInt8} {tail : 0x80 ≤ low}
    (h : Large (.inside owed low high value tail)) (howed : 1 < owed)
    (hin : low ≤ b ∧ b ≤ high) :
    Large (.inside (owed - 1) 0x80 0xBF (value * 0x40 + b.toNat % 0x40) (by decide)) := by
  obtain ⟨hl, hu⟩ := value_range h hin
  obtain ⟨k, rfl⟩ : ∃ k, owed = k + 2 := ⟨owed - 2, by omega⟩
  generalize value * 0x40 + b.toNat % 0x40 = v at hl hu ⊢
  have hpow : 0x40 ^ (k + 1) = 0x40 ^ k * 0x40 := pow_succ _ _
  refine ⟨by omega, UInt8.le_refl _, ?_, ?_⟩
  · calc 0x80 ≤ v * 0x40 ^ (k + 1) := hl
      _ = (v * 0x40 + (0x80 - 0x80)) * 0x40 ^ k := by
        rw [hpow, Nat.sub_self, Nat.add_zero, Nat.mul_assoc, Nat.mul_comm 0x40]
  · calc (v * 0x40 + (0xBF - 0x80) + 1) * 0x40 ^ k = (v + 1) * 0x40 ^ (k + 1) := by
          rw [hpow]
          ring
      _ ≤ 0x110000 := hu

theorem step_character {owed value : ℕ} {low high b : UInt8} {tail : 0x80 ≤ low}
    (h : Large (.inside owed low high value tail)) (howed : owed ≤ 1)
    (hin : low ≤ b ∧ b ≤ high) :
    ∃ u ∈ encodeUtf16 (value * 0x40 + b.toNat % 0x40), ¬ u < 0x80 := by
  obtain ⟨hl, hu⟩ := value_range h hin
  rw [Nat.sub_eq_zero_of_le howed, pow_zero, Nat.mul_one] at hl hu
  exact encodeUtf16_large hl hu

theorem bytes_ascii_of_decodeFrom {q : State} (hq : Large q) {bytes : List UInt8}
    (h : ∀ u ∈ decodeFrom q bytes, u < 0x80) : q = .start ∧ ∀ b ∈ bytes, b < 0x80 := by
  have hreplacement : ¬ (0xFFFD : UInt16) < 0x80 := by decide
  induction bytes generalizing q with
  | nil =>
    cases q with
    | start => exact ⟨rfl, by simp⟩
    | inside => exact absurd (h 0xFFFD (by simp [decodeFrom, replacement])) hreplacement
  | cons b bytes ih =>
    rw [decodeFrom_cons] at h
    have hout : ∀ u ∈ (step q b).2, u < 0x80 := fun u hu => h u (List.mem_append_left _ hu)
    have hrest : ∀ u ∈ decodeFrom (step q b).1 bytes, u < 0x80 :=
      fun u hu => h u (List.mem_append_right _ hu)
    cases q with
    | start =>
      obtain ⟨hstart, hbytes⟩ := ih (q := (first b).1) (first_large b) hrest
      have hb : b < 0x80 := by
        by_contra hb
        have hfirst : (first b).2 = replacement := by
          unfold first at hstart ⊢
          rw [if_neg hb] at hstart ⊢
          split_ifs at hstart ⊢ <;> simp_all
        exact hreplacement (hout 0xFFFD (by rw [step, hfirst]; simp [replacement]))
      exact ⟨rfl, by simpa using ⟨hb, hbytes⟩⟩
    | inside owed low high value tail =>
      exfalso
      rw [step] at hout hrest
      by_cases hin : low ≤ b ∧ b ≤ high
      · rw [if_pos hin] at hout hrest
        by_cases howed : owed ≤ 1
        · simp only [if_pos howed] at hout
          obtain ⟨u, hu, hlarge⟩ := step_character hq howed hin
          exact hlarge (hout u hu)
        · simp only [if_neg howed] at hrest
          have := (ih (step_large hq (by omega) hin) hrest).1
          cases this
      · rw [if_neg hin] at hout
        exact hreplacement (hout 0xFFFD (by simp [replacement]))

/-- Only the bytes of an ASCII string are decoded to it. -/
theorem getString_eq_ascii_iff {bytes key : List UInt8} (hkey : ∀ b ∈ key, b < 0x80) :
    getString bytes = getString key ↔ bytes = key := by
  constructor
  · intro h
    have hall : ∀ u ∈ getString bytes, u < 0x80 := by
      rw [h, getString_ascii hkey]
      intro u hu
      obtain ⟨b, hb, rfl⟩ := List.mem_map.mp hu
      have := hkey b hb
      rw [UInt8.lt_iff_toNat_lt] at this
      rw [UInt16.lt_iff_toNat_lt, UInt8.toNat_toUInt16]
      exact this
    have hbytes := (bytes_ascii_of_decodeFrom (q := .start) trivial hall).2
    rw [getString_ascii hbytes, getString_ascii hkey] at h
    exact (List.map_injective_iff.mpr fun a b hab => UInt8.toUInt16_inj.mp hab) h
  · rintro rfl
    rfl

end Utf8

end DecodingProxy.Runtime
