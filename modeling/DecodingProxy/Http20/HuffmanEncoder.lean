import DecodingProxy.Http20.HuffmanDecoding
import DecodingProxy.Runtime.Faults

/-!
# `HuffmanEncoder`

The codes are shifted into a register and go out a byte at a time. What is left over is filled up
with ones, which no code is short enough to be found in, so the text is read back as it was.
-/

namespace DecodingProxy.Http20
open DecodingProxy.Bits DecodingProxy.PrefixCodes DecodingProxy.Runs DecodingProxy.Runtime
open HuffmanCoding

namespace HuffmanEncoder

/-- The register with the number of its bits, and what was written. -/
structure Packing where
  current : BitVec 64
  n : ℕ
  output : List UInt8

/-- The loop that writes bytes while there are eight bits. -/
def flush (p : Packing) : Packing :=
  if 8 ≤ p.n then
    let n := p.n - 8
    flush { p with
      n, output := p.output ++ [UInt8.ofBitVec ((p.current.sshiftRight n).setWidth 8)] }
  else p
termination_by p.n
decreasing_by
  show p.n - 8 < p.n
  omega

def put (p : Packing) (b : UInt8) : Packing :=
  let code := (word (ofByte b)).1
  let nbits := (word (ofByte b)).2
  flush { p with current := p.current <<< nbits ||| BitVec.ofNat 64 code, n := p.n + nbits }

def pad (p : Packing) : List UInt8 :=
  if 0 < p.n then
    let current := p.current <<< (8 - p.n) ||| BitVec.ofNat 64 (0xFF >>> p.n)
    p.output ++ [UInt8.ofBitVec (current.setWidth 8)]
  else p.output

/-- `data[off + i]` for `i` from 0 to `len`. -/
def putRange (data : List UInt8) (off len : ℕ) : Except Fault Packing :=
  (List.range len).foldlM
    (fun p i =>
      match data[off + i]? with
      | none => .error (.raised .indexOutOfRange)
      | some b => .ok (put p b))
    { current := 0, n := 0, output := [] }

/-- `Encode`, of which this is what it writes. The sum of the bounds is an `int`. -/
def encode (data : List UInt8) (off len : ℤ) : Except Fault (List UInt8) :=
  if off < 0 ∨ len < 0 ∨ (data.length : ℤ) < off ∨ (data.length : ℤ) < int32 (off + len) then
    .error (.thrown .nullReference "")
  else if len = 0 then .ok []
  else do
    let p ← putRange data off.toNat len.toNat
    .ok (pad p)

/-- `GetEncodedLength`, whose last cast is to an `int`. -/
def getEncodedLength (data : List UInt8) : ℤ :=
  let len := (data.map fun b => (word (ofByte b)).2).sum
  int32 (((len + 7) >>> 3 : ℕ) : ℤ)

/-- What was written, and the bits in the register, are these. -/
structure Packed (string : List Bool) (p : Packing) : Prop where
  written : bytesBits p.output ++ bits p.n p.current.getLsbD = string

theorem flush_packed {string : List Bool} {p : Packing} (h : Packed string p) (hn : p.n ≤ 64) :
    Packed string (flush p) ∧ (flush p).n < 8 := by
  induction hk : p.n using Nat.strong_induction_on generalizing p with
  | _ k ih =>
    subst hk
    rw [flush]
    by_cases hless : 8 ≤ p.n
    · rw [if_pos hless]
      have hbyte := byteBits_sshiftRight hless hn p.current
      refine ih (p.n - 8) (by omega) ⟨?_⟩ ((Nat.sub_le _ _).trans hn) rfl
      have hcut : bits p.n p.current.getLsbD =
          (bits p.n p.current.getLsbD).take 8 ++ bits (p.n - 8) p.current.getLsbD := by
        rw [← drop_bits, List.take_append_drop]
      rw [bytesBits_append, bytesBits_cons, bytesBits_nil, hbyte, List.append_nil,
        List.append_assoc, ← hcut]
      exact h.written
    · rw [if_neg hless]
      exact ⟨h, Nat.lt_of_not_le hless⟩

/-- The bits of a number in a register that is wide enough. -/
theorem bits_ofNat {k v : ℕ} (hk : k ≤ 64) (hv : v < 2 ^ k) :
    bits k (BitVec.ofNat 64 v).getLsbD = bits k v.testBit ∧
      ∀ i, k ≤ i → (BitVec.ofNat 64 v).getLsbD i = false := by
  constructor
  · refine bits_congr fun i hi => ?_
    rw [BitVec.getLsbD_ofNat, decide_eq_true (by omega), Bool.true_and]
  · intro i hi
    have hpow : 2 ^ k ≤ 2 ^ i := Nat.pow_le_pow_right Nat.two_pos hi
    rw [BitVec.getLsbD_ofNat, Nat.testBit_lt_two_pow (hv.trans_le hpow), Bool.and_false]

theorem put_packed {string : List Bool} {p : Packing} (h : Packed string p) (hn : p.n < 8)
    (b : UInt8) :
    Packed (string ++ code.code (ofByte b)) (put p b) ∧ (put p b).n < 8 := by
  have hlen := (length_word (ofByte b)).2
  have hv := value_lt (ofByte b)
  unfold maxLength at hlen
  obtain ⟨hcode, hzero⟩ := bits_ofNat (show (word (ofByte b)).2 ≤ 64 by omega) hv
  refine flush_packed ⟨?_⟩ (show p.n + (word (ofByte b)).2 ≤ 64 by omega)
  rw [bits_shiftLeft_or (by omega) _ _ hzero, hcode, ← List.append_assoc, h.written, code_apply]

theorem foldl_put_packed (data : List UInt8) {string : List Bool} {p : Packing}
    (h : Packed string p) (hn : p.n < 8) :
    Packed (string ++ code.write (data.map ofByte)) (data.foldl put p) ∧
      (data.foldl put p).n < 8 := by
  induction data generalizing string p with
  | nil => exact ⟨by simpa using h, hn⟩
  | cons b data ih =>
    obtain ⟨hput, hlt⟩ := put_packed h hn b
    simpa [List.append_assoc] using ih hput hlt

theorem bits_pad {n : ℕ} (hn : n < 8) (current : BitVec 64) :
    byteBits (UInt8.ofBitVec
      ((current <<< (8 - n) ||| BitVec.ofNat 64 (0xFF >>> n)).setWidth 8)) =
      bits n current.getLsbD ++ List.replicate (8 - n) true := by
  have hall : ∀ n < 8, 0xFF >>> n = 2 ^ (8 - n) - 1 := by decide
  have hones := hall n hn
  have hlt : 0xFF >>> n < 2 ^ (8 - n) := by
    rw [hones]
    exact Nat.sub_lt (Nat.two_pow_pos _) Nat.one_pos
  obtain ⟨hcode, hzero⟩ := bits_ofNat (show 8 - n ≤ 64 by omega) hlt
  have hbits := bits_shiftLeft_or (m := n) (k := 8 - n) (by omega) current _ hzero
  rw [byteBits_ofBitVec]
  rw [hcode, Nat.add_sub_cancel' hn.le, hones] at hbits
  have hcast : bits 8 ((current <<< (8 - n) ||| BitVec.ofNat 64 (0xFF >>> n)).setWidth 8).getLsbD =
      bits 8 (current <<< (8 - n) ||| BitVec.ofNat 64 (0xFF >>> n)).getLsbD :=
    bits_congr fun i hi => by simp only [BitVec.getLsbD_setWidth, hi, decide_true, Bool.true_and]
  rw [hcast, hones, hbits, ← bits_const]
  congr 1
  exact bits_congr fun i hi => by simp [Nat.testBit_two_pow_sub_one, hi]

theorem pad_bits {string : List Bool} {p : Packing} (h : Packed string p) (hn : p.n < 8) :
    ∃ k < 8, bytesBits (pad p) = string ++ List.replicate k true := by
  unfold pad
  by_cases hpos : 0 < p.n
  · refine ⟨8 - p.n, by omega, ?_⟩
    rw [if_pos hpos, bytesBits_append, bytesBits_cons, bytesBits_nil, List.append_nil,
      bits_pad hn, ← List.append_assoc, h.written]
  · refine ⟨0, by omega, ?_⟩
    have hzero : p.n = 0 := by omega
    have hwritten := h.written
    rw [hzero, bits_zero, List.append_nil] at hwritten
    rw [if_neg hpos, hwritten, List.replicate_zero, List.append_nil]

/-- What is written for a text. -/
def written (data : List UInt8) : List UInt8 :=
  pad (data.foldl put { current := 0, n := 0, output := [] })

/-- The words of the text, and ones that fill the last byte. -/
theorem written_bits (data : List UInt8) :
    ∃ k < 8, bytesBits (written data) = code.write (data.map ofByte) ++ List.replicate k true := by
  have hstart : Packed [] { current := 0, n := 0, output := [] } := ⟨rfl⟩
  obtain ⟨hpacked, hn⟩ := foldl_put_packed data hstart (Nat.zero_lt_succ 7)
  exact pad_bits hpacked hn

theorem putRange_eq (data : List UInt8) (off len : ℕ) :
    putRange data off len =
      if off + len ≤ data.length ∨ len = 0 then
        .ok (((data.drop off).take len).foldl put { current := 0, n := 0, output := [] })
      else .error (.raised .indexOutOfRange) := by
  unfold putRange
  induction len with
  | zero =>
    rw [if_pos (.inr rfl)]
    rfl
  | succ len ih =>
    rw [List.range_succ, List.foldlM_append, ih]
    by_cases hle : off + len + 1 ≤ data.length
    · have hlt : off + len < data.length := hle
      rw [if_pos (.inl (by omega)), if_pos (.inl hle)]
      simp only [bind, Except.bind, List.foldlM_cons, List.foldlM_nil, List.getElem?_eq_getElem hlt,
        pure, Except.pure]
      rw [List.take_add_one, List.getElem?_drop, List.getElem?_eq_getElem hlt, Option.toList_some,
        List.foldl_append]
      rfl
    · have hnot : ¬ (off + (len + 1) ≤ data.length ∨ len + 1 = 0) := by omega
      rw [if_neg hnot]
      by_cases hprev : off + len ≤ data.length ∨ len = 0
      · have hnone : data[off + len]? = none := by
          rw [List.getElem?_eq_none]
          omega
        rw [if_pos hprev]
        simp only [bind, Except.bind, List.foldlM_cons, hnone]
      · rw [if_neg hprev]
        rfl

theorem int32_le_self {z : ℤ} (h : 0 ≤ z) : int32 z ≤ z := by
  rcases lt_or_ge z (2 ^ 31) with hz | hz
  · exact (int32_of_range (by omega) hz).le
  · exact (int32_range z).2.le.trans hz

/-- A part of the text is encoded just when it is one, also where the sum of its bounds runs over
the end of an `int`. -/
theorem encode_ok_iff {data out : List UInt8} {off len : ℤ} :
    encode data off len = .ok out ↔
      0 ≤ off ∧ 0 ≤ len ∧ off + len ≤ data.length ∧
        out = written ((data.drop off.toNat).take len.toNat) := by
  have hnil : written [] = [] := by decide
  unfold encode
  by_cases hguard : off < 0 ∨ len < 0 ∨ (data.length : ℤ) < off ∨
    (data.length : ℤ) < int32 (off + len)
  · rw [if_pos hguard]
    constructor
    · intro h
      cases h
    · rintro ⟨hoff, hlen, hle, -⟩
      have hwrap := int32_le_self (show 0 ≤ off + len by omega)
      omega
  · rw [if_neg hguard]
    by_cases hzero : len = 0
    · subst hzero
      rw [if_pos rfl]
      simp only [Except.ok.injEq, Int.toNat_zero, List.take_zero, hnil, le_refl, true_and, add_zero]
      constructor
      · rintro rfl
        exact ⟨by omega, by omega, rfl⟩
      · rintro ⟨-, -, rfl⟩
        rfl
    · rw [if_neg hzero, putRange_eq]
      by_cases hle : off.toNat + len.toNat ≤ data.length ∨ len.toNat = 0
      · rw [if_pos hle]
        simp only [bind, Except.bind, Except.ok.injEq]
        constructor
        · rintro rfl
          exact ⟨by omega, by omega, by omega, rfl⟩
        · rintro ⟨-, -, -, rfl⟩
          rfl
      · rw [if_neg hle]
        constructor
        · intro h
          cases h
        · rintro ⟨hoff, hlen, hle', -⟩
          omega

end HuffmanEncoder

namespace HuffmanCoding
open HuffmanEncoder

theorem map_byteOf_ofByte (data : List UInt8) : (data.map ofByte).map byteOf = data := by
  rw [List.map_map]
  conv_rhs => rw [← List.map_id data]
  exact List.map_congr_left fun b _ => by simp [byteOf, ofByte]

theorem eos_notMem (data : List UInt8) : eos ∉ data.map ofByte := by
  intro h
  obtain ⟨b, -, hb⟩ := List.mem_map.mp h
  exact ofByte_ne_eos b hb

theorem parse_written (data : List UInt8) :
    ∃ k < 8, code.Parse (bytesBits (written data)) (data.map ofByte) (List.replicate k true) := by
  obtain ⟨k, hk, hbits⟩ := written_bits data
  exact ⟨k, hk, hbits, fun s => not_prefix_ones s hk⟩

theorem verdict_text (data : List UInt8) {tail : List Bool} (htail : false ∉ tail) :
    verdict (data.map ofByte) tail = .ok data := by
  have heos := eos_notMem data
  have hlast : eos ∉ (data.map ofByte).dropLast := fun h => heos (List.mem_of_mem_dropLast h)
  have hpadding : false ∉ padding tail := fun h => htail (List.mem_of_mem_drop h)
  rw [verdict, if_neg (by simp [heos, hlast]), if_neg hpadding, map_byteOf_ofByte]

theorem decode_written (data : List UInt8) : decode (written data) = .ok data := by
  obtain ⟨k, -, hparse⟩ := parse_written data
  rw [decode_eq_verdict hparse]
  exact verdict_text data (by simp [List.mem_replicate])

theorem length_written (data : List UInt8) :
    (written data).length = ((code.write (data.map ofByte)).length + 7) / 8 := by
  obtain ⟨k, hk, hbits⟩ := written_bits data
  have hlen := congrArg List.length hbits
  rw [length_bytesBits, List.length_append, List.length_replicate] at hlen
  omega

theorem length_write (data : List UInt8) :
    (code.write (data.map ofByte)).length = (data.map fun b => (word (ofByte b)).2).sum := by
  induction data with
  | nil => rfl
  | cons b data ih =>
    rw [List.map_cons, PrefixCode.write_cons, List.length_append, ih, List.map_cons, List.sum_cons,
      length_code]

/-- Every part of a text is read back from what it was encoded to, and nothing else is encoded. -/
theorem decode_encode (data : List UInt8) (off len : ℤ) :
    if 0 ≤ off ∧ 0 ≤ len ∧ off + len ≤ data.length then
      ∃ out, encode data off len = .ok out ∧
        decode out = .ok ((data.drop off.toNat).take len.toNat)
    else ∃ fault, encode data off len = .error fault := by
  by_cases hrange : 0 ≤ off ∧ 0 ≤ len ∧ off + len ≤ data.length
  · rw [if_pos hrange]
    obtain ⟨hoff, hlen, hle⟩ := hrange
    exact ⟨_, encode_ok_iff.mpr ⟨hoff, hlen, hle, rfl⟩, decode_written _⟩
  · rw [if_neg hrange]
    cases hencode : encode data off len with
    | error fault => exact ⟨fault, rfl⟩
    | ok out =>
      obtain ⟨hoff, hlen, hle, -⟩ := encode_ok_iff.mp hencode
      exact absurd ⟨hoff, hlen, hle⟩ hrange

/-- `GetEncodedLength` counts what `Encode` writes, up to the range of an `int`. -/
theorem getEncodedLength_eq (data : List UInt8) :
    ∃ out, encode data 0 data.length = .ok out ∧ getEncodedLength data = int32 out.length := by
  refine ⟨written data, encode_ok_iff.mpr ⟨le_refl _, by simp, by simp, by simp⟩, ?_⟩
  rw [getEncodedLength, length_written, length_write, Nat.shiftRight_eq_div_pow]

/-- Every buffer has one reading as words with a tail, and the decoder judges it by this reading. -/
theorem decode_judges (buf : List UInt8) :
    ∃ ss tail, code.Parse (bytesBits buf) ss tail ∧
      (∀ ss' tail', code.Parse (bytesBits buf) ss' tail' → ss' = ss ∧ tail' = tail) ∧
      decode buf = verdict ss tail := by
  obtain ⟨ss, tail, h⟩ := code.exists_parse (bytesBits buf)
  exact ⟨ss, tail, h, fun ss' tail' h' => h'.unique h, decode_eq_verdict h⟩

/-- A text that was decoded is encoded to what it was decoded from just when this has no more than
padding behind the text's words, and no end of the string among them. -/
theorem encode_decode_iff (buf data : List UInt8) :
    decode buf = .ok data ∧ encode data 0 data.length = .ok buf ↔
      ∃ tail, code.Parse (bytesBits buf) (data.map ofByte) tail ∧
        tail.length < 8 ∧ false ∉ tail := by
  have hencode : encode data 0 data.length = .ok buf ↔ buf = written data := by
    rw [encode_ok_iff]
    simp
  rw [hencode]
  constructor
  · rintro ⟨-, rfl⟩
    obtain ⟨k, hk, hparse⟩ := parse_written data
    exact ⟨_, hparse, by simpa using hk, by simp [List.mem_replicate]⟩
  · rintro ⟨tail, hparse, hshort, hones⟩
    refine ⟨by rw [decode_eq_verdict hparse, verdict_text data hones], bytesBits_injective ?_⟩
    -- both are the words of the text and ones up to the next byte
    obtain ⟨k, hk, hbits⟩ := written_bits data
    have htail : tail = List.replicate tail.length true :=
      List.eq_replicate_iff.mpr ⟨rfl, fun b hb => by cases b <;> [exact absurd hb hones; rfl]⟩
    have hlen := congrArg List.length hparse.eq
    have hlen' := congrArg List.length hbits
    rw [length_bytesBits, List.length_append] at hlen
    rw [length_bytesBits, List.length_append, List.length_replicate] at hlen'
    have hk' : tail.length = k := by omega
    rw [hparse.eq, hbits, htail, hk']

end HuffmanCoding

end DecodingProxy.Http20
