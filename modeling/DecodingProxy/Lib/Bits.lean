import Mathlib.Data.List.Basic
import Mathlib.Data.List.Infix
import Mathlib.Data.Nat.Bitwise
import Mathlib.Tactic.Linarith

/-!
# Bits with the highest first

A word of `w` bits is read off anything that has a bit at every place: a number, a `BitVec`.
As strings words are put behind each other by `++`, where shifts and masks move them in a
register.
-/

namespace DecodingProxy.Bits

/-- The bits at the places `w - 1` to `0`. -/
def bits : ℕ → (ℕ → Bool) → List Bool
  | 0, _ => []
  | w + 1, f => f w :: bits w f

variable {f g : ℕ → Bool} {w k : ℕ}

@[simp] theorem bits_zero (f : ℕ → Bool) : bits 0 f = [] := rfl

@[simp] theorem length_bits (w : ℕ) (f : ℕ → Bool) : (bits w f).length = w := by
  induction w with
  | zero => rfl
  | succ w ih => simp [bits, ih]

theorem bits_congr (h : ∀ i < w, f i = g i) : bits w f = bits w g := by
  induction w with
  | zero => rfl
  | succ w ih =>
    rw [bits, bits, h w (Nat.lt_succ_self w), ih fun i hi => h i (Nat.lt_succ_of_lt hi)]

theorem bits_inj_on (h : bits w f = bits w g) : ∀ i < w, f i = g i := by
  induction w with
  | zero => exact fun i hi => absurd hi (Nat.not_lt_zero i)
  | succ w ih =>
    obtain ⟨hw, hrest⟩ := List.cons.inj h
    intro i hi
    rcases Nat.lt_succ_iff_lt_or_eq.mp hi with hi | rfl
    · exact ih hrest i hi
    · exact hw

theorem bits_add (a b : ℕ) (f : ℕ → Bool) :
    bits (a + b) f = bits a (fun i => f (i + b)) ++ bits b f := by
  induction a with
  | zero => simp
  | succ a ih => rw [Nat.add_right_comm, bits, bits, ih, List.cons_append]

/-- What is shifted up, and what comes in below. -/
theorem bits_append (hhigh : ∀ i < w, f (i + k) = g i) {g' : ℕ → Bool}
    (hlow : ∀ i < k, f i = g' i) : bits (w + k) f = bits w g ++ bits k g' := by
  rw [bits_add, bits_congr hhigh, bits_congr hlow]

theorem take_bits (hk : k ≤ w) : (bits w f).take k = bits k (fun i => f (i + (w - k))) := by
  have hw : w = k + (w - k) := (Nat.add_sub_cancel' hk).symm
  conv_lhs => rw [hw, bits_add, List.take_left' (length_bits _ _)]

theorem drop_bits (k w : ℕ) (f : ℕ → Bool) : (bits w f).drop k = bits (w - k) f := by
  rcases Nat.lt_or_ge w k with hk | hk
  · rw [List.drop_of_length_le (by simpa using hk.le), Nat.sub_eq_zero_of_le hk.le, bits_zero]
  · have hw : w = k + (w - k) := (Nat.add_sub_cancel' hk).symm
    conv_lhs => rw [hw, bits_add, List.drop_left' (length_bits _ _)]

theorem bits_const (w : ℕ) (b : Bool) : bits w (fun _ => b) = List.replicate w b := by
  induction w with
  | zero => rfl
  | succ w ih => rw [bits, ih, List.replicate_succ]

theorem exists_bits (l : List Bool) : ∃ n < 2 ^ l.length, l = bits l.length n.testBit := by
  induction l with
  | nil => exact ⟨0, Nat.one_pos, rfl⟩
  | cons b l ih =>
    obtain ⟨n, hn, hl⟩ := ih
    refine ⟨b.toNat * 2 ^ l.length + n, ?_, ?_⟩
    · rw [List.length_cons, pow_succ]
      cases b <;> simp <;> omega
    · have htop : (b.toNat * 2 ^ l.length + n).testBit l.length = b := by
        rw [Nat.mul_comm, Nat.testBit_two_pow_mul_add _ hn]
        cases b <;> simp
      have hrest : bits l.length (b.toNat * 2 ^ l.length + n).testBit = l := by
        conv_rhs => rw [hl]
        refine bits_congr fun i hi => ?_
        rw [Nat.mul_comm, Nat.testBit_two_pow_mul_add _ hn, if_pos hi]
      rw [List.length_cons, bits, htop, hrest]

/-- A word in front of a number of `w` bits says which numbers these are: the ones of an
interval. -/
theorem bits_prefix_iff {v n : ℕ} (hk : k ≤ w) (hv : v < 2 ^ k) (hn : n < 2 ^ w) :
    bits k v.testBit <+: bits w n.testBit ↔
      v * 2 ^ (w - k) ≤ n ∧ n < (v + 1) * 2 ^ (w - k) := by
  have hpos : 0 < 2 ^ (w - k) := Nat.two_pow_pos _
  have hlt : n / 2 ^ (w - k) < 2 ^ k := by
    rw [Nat.div_lt_iff_lt_mul hpos, ← pow_add, Nat.add_sub_cancel' hk]
    exact hn
  have htake : (bits w n.testBit).take k = bits k (n / 2 ^ (w - k)).testBit := by
    rw [take_bits hk]
    exact bits_congr fun i _ => by rw [Nat.testBit_div_two_pow]
  rw [List.prefix_iff_eq_take, length_bits, htake]
  have heq : bits k v.testBit = bits k (n / 2 ^ (w - k)).testBit ↔ n / 2 ^ (w - k) = v := by
    constructor
    · intro h
      refine (Nat.eq_of_testBit_eq fun i => ?_).symm
      rcases Nat.lt_or_ge i k with hi | hi
      · exact bits_inj_on h i hi
      · have hpow : 2 ^ k ≤ 2 ^ i := Nat.pow_le_pow_right Nat.two_pos hi
        rw [Nat.testBit_lt_two_pow (hv.trans_le hpow), Nat.testBit_lt_two_pow (hlt.trans_le hpow)]
    · rintro rfl
      rfl
  rw [heq, Nat.div_eq_iff hpos]
  constructor <;> rintro ⟨hl, hu⟩ <;> refine ⟨by linarith, ?_⟩
  · rw [Nat.add_mul]
    omega
  · rw [Nat.add_mul] at hu
    omega

def byteBits (b : UInt8) : List Bool := bits 8 b.toNat.testBit

@[simp] theorem length_byteBits (b : UInt8) : (byteBits b).length = 8 := length_bits _ _

theorem byteBits_injective {a b : UInt8} (h : byteBits a = byteBits b) : a = b := by
  refine UInt8.toNat_inj.mp (Nat.eq_of_testBit_eq fun i => ?_)
  rcases Nat.lt_or_ge i 8 with hi | hi
  · exact bits_inj_on h i hi
  · have hpow : 2 ^ 8 ≤ 2 ^ i := Nat.pow_le_pow_right Nat.two_pos hi
    rw [Nat.testBit_lt_two_pow (a.toNat_lt.trans_le hpow),
      Nat.testBit_lt_two_pow (b.toNat_lt.trans_le hpow)]

/-- A narrowing to a byte keeps the lowest eight bits. -/
theorem byteBits_ofNat (n : ℕ) : byteBits (UInt8.ofNat n) = bits 8 n.testBit := by
  refine bits_congr fun i hi => ?_
  rw [UInt8.toNat_ofNat', show 2 ^ 8 = 2 ^ 8 from rfl, Nat.testBit_mod_two_pow]
  simp [hi]

theorem byteBits_ofBitVec (x : BitVec 8) : byteBits (UInt8.ofBitVec x) = bits 8 x.getLsbD := rfl

/-- A register is shifted up, and what is below `k` alone is put in. -/
theorem bits_shiftLeft_or {n m : ℕ} (h : m + k ≤ n) (x y : BitVec n)
    (hy : ∀ i, k ≤ i → y.getLsbD i = false) :
    bits (m + k) (x <<< k ||| y).getLsbD = bits m x.getLsbD ++ bits k y.getLsbD := by
  refine bits_append (fun i hi => ?_) fun i hi => ?_
  · have hlt : i + k < n := by omega
    have hge : ¬ i + k < k := by omega
    rw [BitVec.getLsbD_or, BitVec.getLsbD_shiftLeft, hy _ (Nat.le_add_left k i)]
    simp only [hlt, hge, decide_true, decide_false, Bool.not_false, Bool.true_and, Bool.or_false,
      Nat.add_sub_cancel]
  · rw [BitVec.getLsbD_or, BitVec.getLsbD_shiftLeft]
    simp only [hi, decide_true, Bool.not_true, Bool.and_false, Bool.false_and, Bool.false_or]

/-- The highest eight of `m` bits, shifted down to a byte. -/
theorem byteBits_sshiftRight {n m : ℕ} (hm : 8 ≤ m) (h : m ≤ n) (x : BitVec n) :
    byteBits (UInt8.ofBitVec ((x.sshiftRight (m - 8)).setWidth 8)) =
      (bits m x.getLsbD).take 8 := by
  rw [take_bits hm, byteBits_ofBitVec]
  refine bits_congr fun i hi => ?_
  have hlt : m - 8 + i < n := by omega
  have hlt' : ¬ n ≤ i := by omega
  simp only [BitVec.getLsbD_setWidth, BitVec.getLsbD_sshiftRight, hi, hlt, hlt', decide_true,
    decide_false, Bool.not_false, Bool.true_and, if_true, Nat.add_comm i]

/-- The bits of bytes behind each other. -/
def bytesBits (data : List UInt8) : List Bool := data.flatMap byteBits

@[simp] theorem bytesBits_nil : bytesBits [] = [] := rfl

@[simp] theorem bytesBits_cons (b : UInt8) (data : List UInt8) :
    bytesBits (b :: data) = byteBits b ++ bytesBits data := rfl

@[simp] theorem bytesBits_append (x y : List UInt8) :
    bytesBits (x ++ y) = bytesBits x ++ bytesBits y := List.flatMap_append

@[simp] theorem length_bytesBits (data : List UInt8) :
    (bytesBits data).length = 8 * data.length := by
  induction data with
  | nil => rfl
  | cons b data ih =>
    rw [bytesBits_cons, List.length_append, ih, length_byteBits, List.length_cons]
    omega

theorem bytesBits_injective {x y : List UInt8} (h : bytesBits x = bytesBits y) : x = y := by
  induction x generalizing y with
  | nil =>
    have := congrArg List.length h
    cases y with
    | nil => rfl
    | cons b y =>
      simp only [bytesBits_nil, List.length_nil, length_bytesBits, List.length_cons] at this
      omega
  | cons a x ih =>
    cases y with
    | nil => simpa using congrArg List.length h
    | cons b y =>
      obtain ⟨hab, hxy⟩ := List.append_inj h (by simp)
      rw [byteBits_injective hab, ih hxy]

end DecodingProxy.Bits
