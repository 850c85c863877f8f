import DecodingProxy.Http20.HuffmanEncoder
import DecodingProxy.Http20.StaticTable
import DecodingProxy.Runtime.Memory

/-!
# `ReaderHttp2`: the fields of a header block

The loop of the case of a HEADERS frame. It reads names by an index into the static table or as
text, and nothing is ever put into its dynamic table. What it gets through are exactly the blocks of
four representations, with strings of less than 128 bytes.
-/

namespace DecodingProxy.Http20
open DecodingProxy.Runs DecodingProxy.Runtime HuffmanCoding

/-- The representation a line on the console names. -/
inductive Kind
  | indexed
  | incremental
  | noIndex
  deriving DecidableEq, Repr

structure Line where
  kind : Kind
  name : Str
  value : Str
  deriving DecidableEq, Repr

namespace ReaderHttp2

def raising {α : Type} : Except Fault α → Except DecoderFault α :=
  Except.mapError fun fault => .halt (.threw fault)

/-- `span[index]`. -/
def item (span : List UInt8) (index : ℕ) : Except DecoderFault UInt8 :=
  match span[index]? with
  | none => .error (.halt (.threw (.raised .indexOutOfRange)))
  | some b => .ok b

/-- `DecodeLength`. -/
def decodeLength (value : UInt8) : Bool × ℕ :=
  (value &&& 0x80 ≠ 0, (value &&& 0x7F).toNat)

def decodeText (isHuffman : Bool) (bytes : List UInt8) : Except DecoderFault Str := do
  let bytes ← if isHuffman then decode bytes else .ok bytes
  .ok (Utf8.getString bytes)

/-- `new DynamicTable()`, into which nothing is put. -/
def dynamicTable : List HeaderField20 := []

def readIndexed (bodySpan : List UInt8) (index : ℕ) : Except DecoderFault (Line × List UInt8) := do
  if index = 0 then
    .error (.halt (.threw (.thrown .format ("The index value of 0 is not used. It MUST be treated " ++
      "as a decoding error if found in an indexed header field representation."))))
  else
    let entry ← raising
      (if (index : ℤ) < DynamicTable.LENGTH_STATIC_TABLE then StaticTable.getEntry index
      else DynamicTable.getEntry dynamicTable index)
    let headersSlice ← raising (sliceFrom bodySpan 1)
    .ok (⟨.indexed, Utf8.getString entry.name, Utf8.getString entry.value⟩, headersSlice)

def readIncremental (bodySpan : List UInt8) (index : ℕ) :
    Except DecoderFault (Line × List UInt8) := do
  let b ← item bodySpan 1
  let pair := decodeLength b
  if index ≠ 0 then
    let entry ← raising (DynamicTable.getEntry dynamicTable index)
    let valueString ← raising (slice bodySpan 2 pair.2)
    let value ← decodeText pair.1 valueString
    let headersSlice ← raising (sliceFrom bodySpan (2 + pair.2 : ℕ))
    .ok (⟨.incremental, Utf8.getString entry.name, value⟩, headersSlice)
  else
    let fieldName ← raising (slice bodySpan 2 pair.2)
    let name ← decodeText pair.1 fieldName
    let headersSlice ← raising (sliceFrom bodySpan (2 + pair.2 : ℕ))
    let b ← item headersSlice 0
    let pairValue := decodeLength b
    let valueSpan ← raising (slice headersSlice 1 pairValue.2)
    let value ← decodeText pairValue.1 valueSpan
    let headersSlice ← raising (sliceFrom headersSlice (1 + pairValue.2 : ℕ))
    .ok (⟨.incremental, name, value⟩, headersSlice)

def readNoIndex (bodySpan : List UInt8) (index : ℕ) : Except DecoderFault (Line × List UInt8) := do
  if index ≠ 0 then
    let entry ← raising (DynamicTable.getEntry dynamicTable index)
    let b ← item bodySpan 1
    let pair := decodeLength b
    let valueString ← raising (slice bodySpan 2 pair.2)
    let value ← decodeText pair.1 valueString
    let headersSlice ← raising (sliceFrom bodySpan (2 + pair.2 : ℕ))
    .ok (⟨.noIndex, Utf8.getString entry.name, value⟩, headersSlice)
  else
    let span ← raising (sliceFrom bodySpan 1)
    let b ← item span 0
    let lengthName := (decodeLength b).2
    let _ ← raising (slice span 1 lengthName)
    let span ← raising (sliceFrom span (1 + lengthName : ℕ))
    let b ← item span 0
    let lengthValue := (decodeLength b).2
    let _ ← raising (slice span 1 lengthValue)
    .error (.halt (.threw (.thrown .notImplemented "")))

/-- One turn of the loop: what is printed, and what is left of the block. -/
def readField (bodySpan : List UInt8) : Except DecoderFault (Line × List UInt8) := do
  let b ← item bodySpan 0
  if 0x7F < b then readIndexed bodySpan (b &&& 0x7F).toNat
  else if 0x40 ≤ b then readIncremental bodySpan (b &&& 0x3F).toNat
  else if 0x10 ≤ b then .error (.halt (.threw (.thrown .notImplemented "")))
  else if b &&& 0xF0 = 0 then readNoIndex bodySpan (b &&& 0x0F).toNat
  else .error (.halt .diverges)

end ReaderHttp2

/-- A string in a block: the flag and the length in one byte, and the bytes themselves. -/
structure Text where
  isHuffman : Bool
  raw : List UInt8
  value : Str
  short : raw.length < 128
  reads : ReaderHttp2.decodeText isHuffman raw = .ok value

/-- An entry of the static table. -/
structure Entry where
  index : ℕ
  field : HeaderField20
  found : StaticTable.getEntry index = .ok field

/-- A field as it stands in a block. -/
inductive FieldRepresentation
  | indexed (entry : Entry)
  | incremental (entry : Entry) (value : Text)
  | incrementalNew (name value : Text)
  | noIndex (entry : Entry) (low : entry.index < 16) (value : Text)

def Text.head (t : Text) : UInt8 := UInt8.ofNat ((if t.isHuffman then 0x80 else 0) + t.raw.length)

def Text.bytes (t : Text) : List UInt8 := t.head :: t.raw

def FieldRepresentation.bytes : FieldRepresentation → List UInt8
  | indexed entry => [UInt8.ofNat (0x80 + entry.index)]
  | incremental entry value => UInt8.ofNat (0x40 + entry.index) :: value.bytes
  | incrementalNew name value => 0x40 :: (name.bytes ++ value.bytes)
  | noIndex entry _ value => UInt8.ofNat entry.index :: value.bytes

def FieldRepresentation.line : FieldRepresentation → Line
  | indexed entry =>
    ⟨.indexed, Utf8.getString entry.field.name, Utf8.getString entry.field.value⟩
  | incremental entry value => ⟨.incremental, Utf8.getString entry.field.name, value.value⟩
  | incrementalNew name value => ⟨.incremental, name.value, value.value⟩
  | noIndex entry _ value => ⟨.noIndex, Utf8.getString entry.field.name, value.value⟩

namespace ReaderHttp2

variable {span rest : List UInt8} {line : Line}

theorem raising_ok_iff {α : Type} {x : Except Fault α} {a : α} : raising x = .ok a ↔ x = .ok a :=
  mapError_ok_iff

theorem item_ok_iff {index : ℕ} {b : UInt8} :
    item span index = .ok b ↔ span[index]? = some b := by
  unfold item
  cases span[index]? <;> simp

theorem slice_ok_iff {start length : ℕ} {part : List UInt8} :
    slice span start length = .ok part ↔
      start + length ≤ span.length ∧ part = (span.drop start).take length := by
  unfold slice
  split_ifs with h
  · simp only [false_iff]
    omega
  · simp only [Except.ok.injEq]
    constructor
    · rintro rfl
      exact ⟨by omega, rfl⟩
    · rintro ⟨-, rfl⟩
      rfl

theorem sliceFrom_ok_iff {start : ℕ} {part : List UInt8} :
    sliceFrom span start = .ok part ↔ start ≤ span.length ∧ part = span.drop start := by
  unfold sliceFrom
  split_ifs with h
  · simp only [false_iff]
    omega
  · simp only [Except.ok.injEq, Int.toNat_natCast]
    constructor
    · rintro rfl
      exact ⟨by omega, rfl⟩
    · rintro ⟨-, rfl⟩
      rfl

/-- The byte of the length at `k`, the bytes it counts, and what is behind them. -/
theorem text_ok_iff {k n : ℕ} {b : UInt8} {raw : List UInt8} :
    (item span k = .ok b ∧ raising (slice span (k + 1) n) = .ok raw ∧
      raising (sliceFrom span (k + 1 + n : ℕ)) = .ok rest) ↔
      ∃ front, front.length = k ∧ raw.length = n ∧ span = front ++ b :: (raw ++ rest) := by
  rw [raising_ok_iff, raising_ok_iff, item_ok_iff, slice_ok_iff, sliceFrom_ok_iff]
  constructor
  · rintro ⟨hb, ⟨hle, rfl⟩, -, rfl⟩
    obtain ⟨hk, rfl⟩ := List.getElem?_eq_some_iff.mp hb
    refine ⟨span.take k, by rw [List.length_take]; omega, ?_, ?_⟩
    · rw [List.length_take, List.length_drop]
      omega
    · have hdrop : span.drop (k + 1 + n) = (span.drop (k + 1)).drop n := List.drop_drop.symm
      rw [hdrop, List.take_append_drop, ← List.drop_eq_getElem_cons hk, List.take_append_drop]
  · rintro ⟨front, rfl, rfl, rfl⟩
    refine ⟨by simp, ⟨by simp; omega, ?_⟩, by simp; omega, ?_⟩
    · rw [← List.drop_drop, List.drop_left, List.drop_one, List.tail_cons, List.take_left]
    · rw [← List.drop_drop, ← List.drop_drop, List.drop_left, List.drop_one, List.tail_cons,
        List.drop_left]

theorem dynamicTable_ok_iff {index : ℕ} {field : HeaderField20} :
    DynamicTable.getEntry dynamicTable index = .ok field ↔
      StaticTable.getEntry index = .ok field := by
  unfold DynamicTable.getEntry
  split_ifs with h
  · rfl
  · have hlen := StaticTable.length_STATIC_TABLE
    have hout : StaticTable.STATIC_TABLE[((index : ℤ) - 1).toNat]? = none := by
      rw [List.getElem?_eq_none_iff]
      unfold DynamicTable.LENGTH_STATIC_TABLE at h
      omega
    have hpos : ¬ (index : ℤ) < 1 := by
      unfold DynamicTable.LENGTH_STATIC_TABLE at h
      omega
    rw [StaticTable.getEntry, if_neg hpos, hout]
    simp [dynamicTable]

theorem entry_index_range (entry : Entry) : 1 ≤ entry.index ∧ entry.index ≤ 61 := by
  have hlen := StaticTable.length_STATIC_TABLE
  have hfound := entry.found
  unfold StaticTable.getEntry at hfound
  split_ifs at hfound with h
  cases hitem : StaticTable.STATIC_TABLE[((entry.index : ℤ) - 1).toNat]? with
  | none =>
    rw [hitem] at hfound
    cases hfound
  | some field =>
    obtain ⟨hlt, -⟩ := List.getElem?_eq_some_iff.mp hitem
    omega

/-- A mask of the `k` low bits. -/
theorem toNat_and_low (b mask : UInt8) {k : ℕ} (h : mask.toNat = 2 ^ k - 1) :
    (b &&& mask).toNat = b.toNat % 2 ^ k := by
  rw [UInt8.toNat_and, h, Nat.and_two_pow_sub_one_eq_mod]

theorem and_low_of_lt {b mask : UInt8} (k : ℕ) (h : mask.toNat = 2 ^ k - 1)
    (hb : b.toNat < 2 ^ k) :
    b &&& mask = b := by
  rw [← UInt8.toNat_inj, toNat_and_low b mask h]
  exact Nat.mod_eq_of_lt hb

theorem and_F0_eq_zero {b : UInt8} (h : b.toNat < 16) : b &&& 0xF0 = 0 := by
  have hlow : b &&& 0x0F = b := and_low_of_lt 4 rfl h
  rw [← hlow, UInt8.and_assoc]
  exact UInt8.and_zero

theorem and_80_eq_zero_iff (b : UInt8) : b &&& 0x80 = 0 ↔ b.toNat < 128 := by
  constructor
  · intro h
    by_contra hhigh
    have hbit : b.toNat.testBit 7 = true :=
      Nat.testBit_of_two_pow_le_and_two_pow_add_one_gt (Nat.le_of_not_lt hhigh) b.toNat_lt
    have hand : (b &&& 0x80).toNat.testBit 7 = true := by
      rw [UInt8.toNat_and, Nat.testBit_and, hbit]
      rfl
    rw [h] at hand
    exact absurd hand (by decide)
  · intro h
    have hlow : b &&& 0x7F = b := and_low_of_lt 7 rfl h
    rw [← hlow, UInt8.and_assoc]
    exact UInt8.and_zero

theorem decodeLength_eq (b : UInt8) :
    decodeLength b = (decide (128 ≤ b.toNat), b.toNat % 128) := by
  have hlow : (b &&& 0x7F).toNat = b.toNat % 2 ^ 7 := toNat_and_low b 0x7F rfl
  have hhigh : b &&& 0x80 ≠ 0 ↔ 128 ≤ b.toNat := by
    rw [Ne, and_80_eq_zero_iff, Nat.not_lt]
  rw [decodeLength, hlow]
  exact congrArg (·, _) (decide_eq_decide.mpr hhigh)

theorem decodeLength_head (t : Text) : decodeLength t.head = (t.isHuffman, t.raw.length) := by
  have hshort := t.short
  have hhead : t.head.toNat = (if t.isHuffman then 0x80 else 0) + t.raw.length := by
    rw [Text.head, UInt8.toNat_ofNat']
    split_ifs <;> omega
  rw [decodeLength_eq, hhead]
  cases t.isHuffman with
  | false =>
    rw [Prod.mk.injEq, decide_eq_false_iff_not]
    simp only [Bool.false_eq_true, if_false]
    omega
  | true =>
    rw [Prod.mk.injEq, decide_eq_true_eq]
    simp only [if_true]
    omega

theorem head_of_decodeLength (b : UInt8) :
    (decodeLength b).2 < 128 ∧
      UInt8.ofNat ((if (decodeLength b).1 then 0x80 else 0) + (decodeLength b).2) = b := by
  have hlt := b.toNat_lt
  rw [decodeLength_eq]
  refine ⟨Nat.mod_lt _ (by decide), ?_⟩
  rw [← UInt8.toNat_inj, UInt8.toNat_ofNat']
  dsimp only
  simp only [decide_eq_true_eq]
  split_ifs <;> omega

/-- What was read as a string is one. -/
theorem exists_text {b : UInt8} {raw : List UInt8} {value : Str}
    (hraw : raw.length = (decodeLength b).2)
    (hvalue : decodeText (decodeLength b).1 raw = .ok value) :
    ∃ t : Text, t.bytes = b :: raw ∧ t.value = value := by
  obtain ⟨hshort, hhead⟩ := head_of_decodeLength b
  refine ⟨⟨(decodeLength b).1, raw, value, hraw ▸ hshort, hvalue⟩, ?_, rfl⟩
  rw [Text.bytes, Text.head]
  simp only [hraw, hhead]

/-- A string is read where one stands. -/
theorem readText_iff {k : ℕ} {value : Str} :
    (∃ b raw, item span k = .ok b ∧
      raising (slice span (k + 1) (decodeLength b).2) = .ok raw ∧
      decodeText (decodeLength b).1 raw = .ok value ∧
      raising (sliceFrom span (k + 1 + (decodeLength b).2 : ℕ)) = .ok rest) ↔
      ∃ (front : List UInt8) (t : Text), front.length = k ∧ t.value = value ∧
        span = front ++ (t.bytes ++ rest) := by
  constructor
  · rintro ⟨b, raw, hb, hraw, hvalue, hrest⟩
    obtain ⟨front, hk, hlen, rfl⟩ := text_ok_iff.mp ⟨hb, hraw, hrest⟩
    obtain ⟨t, ht, rfl⟩ := exists_text hlen hvalue
    exact ⟨front, t, hk, rfl, by rw [ht, List.cons_append]⟩
  · rintro ⟨front, t, hk, rfl, rfl⟩
    have heq : front ++ (t.bytes ++ rest) = front ++ t.head :: (t.raw ++ rest) := rfl
    have hread := text_ok_iff.mpr ⟨front, hk, rfl, heq⟩
    refine ⟨t.head, t.raw, ?_⟩
    rw [decodeLength_head]
    exact ⟨hread.1, hread.2.1, t.reads, hread.2.2⟩

/-- Behind one byte. -/
theorem readText_second_iff {b : UInt8} {tail : List UInt8} {value : Str} :
    (∃ (front : List UInt8) (t : Text), front.length = 1 ∧ t.value = value ∧
      b :: tail = front ++ (t.bytes ++ rest)) ↔
      ∃ t : Text, t.value = value ∧ tail = t.bytes ++ rest := by
  constructor
  · rintro ⟨front, t, hfront, ht, heq⟩
    obtain ⟨c, rfl⟩ := List.length_eq_one_iff.mp hfront
    exact ⟨t, ht, (List.cons.inj heq).2⟩
  · rintro ⟨t, ht, rfl⟩
    exact ⟨[b], t, rfl, ht, rfl⟩

theorem readText_first_iff {value : Str} :
    (∃ (front : List UInt8) (t : Text), front.length = 0 ∧ t.value = value ∧
      span = front ++ (t.bytes ++ rest)) ↔
      ∃ t : Text, t.value = value ∧ span = t.bytes ++ rest := by
  constructor
  · rintro ⟨front, t, hfront, ht, rfl⟩
    rw [List.length_eq_zero_iff] at hfront
    exact ⟨t, ht, by rw [hfront, List.nil_append]⟩
  · rintro ⟨t, ht, rfl⟩
    exact ⟨[], t, rfl, ht, rfl⟩

theorem readIndexed_ok_iff {b : UInt8} {tail : List UInt8} {index : ℕ} :
    readIndexed (b :: tail) index = .ok (line, rest) ↔
      ∃ entry : Entry, entry.index = index ∧ tail = rest ∧
        line = (FieldRepresentation.indexed entry).line := by
  unfold readIndexed
  by_cases hzero : index = 0
  · rw [if_pos hzero]
    simp only [reduceCtorEq, false_iff]
    rintro ⟨entry, hentry, -⟩
    have := entry_index_range entry
    omega
  · have hlookup : ∀ field, (if (index : ℤ) < DynamicTable.LENGTH_STATIC_TABLE then
        StaticTable.getEntry index else DynamicTable.getEntry dynamicTable index) = .ok field ↔
        StaticTable.getEntry index = .ok field := by
      intro field
      split_ifs
      · rfl
      · exact dynamicTable_ok_iff
    have hslice : ∀ part, sliceFrom (b :: tail) 1 = .ok part ↔ part = tail := by
      intro part
      have hpart : sliceFrom (b :: tail) ((1 : ℕ) : ℤ) = .ok part ↔
          1 ≤ (b :: tail).length ∧ part = (b :: tail).drop 1 := sliceFrom_ok_iff
      simpa using hpart
    rw [if_neg hzero]
    simp only [do_ok_iff, raising_ok_iff, hlookup, hslice, Except.ok.injEq, Prod.mk.injEq]
    constructor
    · rintro ⟨field, hfound, _, rfl, rfl, rfl⟩
      exact ⟨⟨index, field, hfound⟩, rfl, rfl, rfl⟩
    · rintro ⟨entry, rfl, rfl, rfl⟩
      exact ⟨entry.field, entry.found, tail, rfl, rfl, rfl⟩

theorem readIncremental_ok_iff {b : UInt8} {tail : List UInt8} {index : ℕ} :
    readIncremental (b :: tail) index = .ok (line, rest) ↔
      (∃ (entry : Entry) (value : Text), entry.index = index ∧ tail = value.bytes ++ rest ∧
        line = (FieldRepresentation.incremental entry value).line) ∨
      ∃ name value : Text, index = 0 ∧ tail = name.bytes ++ (value.bytes ++ rest) ∧
        line = (FieldRepresentation.incrementalNew name value).line := by
  unfold readIncremental
  by_cases hzero : index = 0
  · subst hzero
    simp only [ne_eq, not_true, if_false, do_ok_iff, Except.ok.injEq, Prod.mk.injEq]
    constructor
    · rintro ⟨c, hc, raw, hraw, name, hname, middle, hmiddle, c', hc', raw', hraw', value, hvalue,
        _, hrest, rfl, rfl⟩
      obtain ⟨t, rfl, rfl⟩ := readText_second_iff.mp
        (readText_iff.mp ⟨c, raw, hc, hraw, hname, hmiddle⟩)
      obtain ⟨t', rfl, rfl⟩ := readText_first_iff.mp
        (readText_iff.mp ⟨c', raw', hc', hraw', hvalue, by rwa [Nat.zero_add]⟩)
      exact .inr ⟨t, t', trivial, rfl, rfl⟩
    · rintro (⟨entry, _, hindex, -⟩ | ⟨t, t', -, rfl, rfl⟩)
      · have := entry_index_range entry
        omega
      obtain ⟨c, raw, hc, hraw, hname, hmiddle⟩ := readText_iff.mpr
        (readText_second_iff (b := b).mpr
          ⟨t, rfl, (rfl : t.bytes ++ (t'.bytes ++ rest) = _)⟩)
      obtain ⟨c', raw', hc', hraw', hvalue, hrest⟩ := readText_iff.mpr
        (readText_first_iff.mpr ⟨t', rfl, (rfl : t'.bytes ++ rest = _)⟩)
      rw [Nat.zero_add] at hrest
      exact ⟨c, hc, raw, hraw, _, hname, _, hmiddle, c', hc', raw', hraw', _, hvalue, _, hrest, rfl,
        rfl⟩
  · simp only [ne_eq, hzero, not_false_iff, if_true, do_ok_iff, Except.ok.injEq, Prod.mk.injEq,
      false_and, exists_false, or_false]
    constructor
    · rintro ⟨c, hc, field, hfound, raw, hraw, value, hvalue, _, hrest, rfl, rfl⟩
      obtain ⟨t, rfl, rfl⟩ := readText_second_iff.mp
        (readText_iff.mp ⟨c, raw, hc, hraw, hvalue, hrest⟩)
      rw [raising_ok_iff, dynamicTable_ok_iff] at hfound
      exact ⟨⟨index, field, hfound⟩, t, rfl, rfl, rfl⟩
    · rintro ⟨entry, t, rfl, rfl, rfl⟩
      obtain ⟨c, raw, hc, hraw, hvalue, hrest⟩ := readText_iff.mpr
        (readText_second_iff (b := b).mpr ⟨t, rfl, rfl⟩)
      refine ⟨c, hc, entry.field, ?_, raw, hraw, _, hvalue, _, hrest, rfl, rfl⟩
      rw [raising_ok_iff, dynamicTable_ok_iff]
      exact entry.found

/-- Without an index of a name the reader gives up behind both strings. -/
theorem readNoIndex_ok_iff {b : UInt8} {tail : List UInt8} {index : ℕ} :
    readNoIndex (b :: tail) index = .ok (line, rest) ↔
      ∃ (entry : Entry) (value : Text), entry.index = index ∧ tail = value.bytes ++ rest ∧
        line = ⟨.noIndex, Utf8.getString entry.field.name, value.value⟩ := by
  unfold readNoIndex
  by_cases hzero : index = 0
  · subst hzero
    simp only [ne_eq, not_true, if_false, do_ok_iff, reduceCtorEq, and_false, exists_false,
      false_iff]
    rintro ⟨entry, _, hindex, -⟩
    have := entry_index_range entry
    omega
  · simp only [ne_eq, hzero, not_false_iff, if_true, do_ok_iff, Except.ok.injEq, Prod.mk.injEq]
    constructor
    · rintro ⟨field, hfound, c, hc, raw, hraw, value, hvalue, _, hrest, rfl, rfl⟩
      obtain ⟨t, rfl, rfl⟩ := readText_second_iff.mp
        (readText_iff.mp ⟨c, raw, hc, hraw, hvalue, hrest⟩)
      rw [raising_ok_iff, dynamicTable_ok_iff] at hfound
      exact ⟨⟨index, field, hfound⟩, t, rfl, rfl, rfl⟩
    · rintro ⟨entry, t, rfl, rfl, rfl⟩
      obtain ⟨c, raw, hc, hraw, hvalue, hrest⟩ := readText_iff.mpr
        (readText_second_iff (b := b).mpr ⟨t, rfl, rfl⟩)
      refine ⟨entry.field, ?_, c, hc, raw, hraw, _, hvalue, _, hrest, rfl, rfl⟩
      rw [raising_ok_iff, dynamicTable_ok_iff]
      exact entry.found

/-- The first byte tells the representation and the index. -/
theorem first_byte (b : UInt8) :
    (0x7F < b → b = UInt8.ofNat (0x80 + (b &&& 0x7F).toNat)) ∧
    (0x40 ≤ b → ¬ 0x7F < b → b = UInt8.ofNat (0x40 + (b &&& 0x3F).toNat)) ∧
    (¬ 0x10 ≤ b → b &&& 0xF0 = 0 ∧ b = UInt8.ofNat (b &&& 0x0F).toNat ∧
      (b &&& 0x0F).toNat < 16) := by
  have h7F : (b &&& 0x7F).toNat = b.toNat % 2 ^ 7 := toNat_and_low b 0x7F rfl
  have h3F : (b &&& 0x3F).toNat = b.toNat % 2 ^ 6 := toNat_and_low b 0x3F rfl
  have h0F : (b &&& 0x0F).toNat = b.toNat % 2 ^ 4 := toNat_and_low b 0x0F rfl
  have hlt := b.toNat_lt
  have hc7F : (0x7F : UInt8).toNat = 127 := rfl
  have hc40 : (0x40 : UInt8).toNat = 64 := rfl
  have hc10 : (0x10 : UInt8).toNat = 16 := rfl
  simp only [UInt8.lt_iff_toNat_lt, UInt8.le_iff_toNat_le, hc7F, hc40, hc10]
  refine ⟨fun h => ?_, fun h h' => ?_, fun h => ⟨and_F0_eq_zero (by omega), ?_, ?_⟩⟩
  · rw [← UInt8.toNat_inj, UInt8.toNat_ofNat', h7F]
    omega
  · rw [← UInt8.toNat_inj, UInt8.toNat_ofNat', h3F]
    omega
  · rw [← UInt8.toNat_inj, UInt8.toNat_ofNat', h0F]
    omega
  · omega

theorem first_byte_index {n : ℕ} (h : n < 64) :
    0x7F < UInt8.ofNat (0x80 + n) ∧ (UInt8.ofNat (0x80 + n) &&& 0x7F).toNat = n ∧
    0x40 ≤ UInt8.ofNat (0x40 + n) ∧ ¬ 0x7F < UInt8.ofNat (0x40 + n) ∧
    (UInt8.ofNat (0x40 + n) &&& 0x3F).toNat = n := by
  have h7F : (UInt8.ofNat (0x80 + n) &&& 0x7F).toNat = _ % 2 ^ 7 := toNat_and_low _ 0x7F rfl
  have h3F : (UInt8.ofNat (0x40 + n) &&& 0x3F).toNat = _ % 2 ^ 6 := toNat_and_low _ 0x3F rfl
  have hc7F : (0x7F : UInt8).toNat = 127 := rfl
  have hc40 : (0x40 : UInt8).toNat = 64 := rfl
  simp only [UInt8.lt_iff_toNat_lt, UInt8.le_iff_toNat_le, hc7F, hc40, h7F, h3F,
    UInt8.toNat_ofNat']
  omega

theorem first_byte_low {n : ℕ} (h : n < 16) :
    ¬ 0x7F < UInt8.ofNat n ∧ ¬ 0x40 ≤ UInt8.ofNat n ∧ ¬ 0x10 ≤ UInt8.ofNat n ∧
    UInt8.ofNat n &&& 0xF0 = 0 ∧ (UInt8.ofNat n &&& 0x0F).toNat = n := by
  have h0F : (UInt8.ofNat n &&& 0x0F).toNat = _ % 2 ^ 4 := toNat_and_low _ 0x0F rfl
  have hn : (UInt8.ofNat n).toNat = n := by
    rw [UInt8.toNat_ofNat']
    omega
  have hc7F : (0x7F : UInt8).toNat = 127 := rfl
  have hc40 : (0x40 : UInt8).toNat = 64 := rfl
  have hc10 : (0x10 : UInt8).toNat = 16 := rfl
  refine ⟨?_, ?_, ?_, and_F0_eq_zero (by omega), by omega⟩
  all_goals
    simp only [UInt8.lt_iff_toNat_lt, UInt8.le_iff_toNat_le, hc7F, hc40, hc10, hn]
    omega

theorem readField_ok_iff {block : List UInt8} :
    readField block = .ok (line, rest) ↔
      ∃ f : FieldRepresentation, block = f.bytes ++ rest ∧ line = f.line := by
  cases block with
  | nil =>
    have herror : readField [] = .error (.halt (.threw (.raised .indexOutOfRange))) := rfl
    rw [herror]
    simp only [reduceCtorEq, false_iff]
    rintro ⟨f, hbytes, -⟩
    cases f <;> simp [FieldRepresentation.bytes] at hbytes
  | cons b tail =>
    have hitem : item (b :: tail) 0 = .ok b := rfl
    rw [readField, do_of_ok hitem]
    constructor
    · intro h
      obtain ⟨hindexed, hincremental, hlow⟩ := first_byte b
      split_ifs at h with h7F h40 h10 hF0
      · obtain ⟨entry, hindex, rfl, rfl⟩ := readIndexed_ok_iff.mp h
        refine ⟨.indexed entry, ?_, rfl⟩
        rw [FieldRepresentation.bytes, hindex, ← hindexed h7F, List.singleton_append]
      · rcases readIncremental_ok_iff.mp h with ⟨entry, t, hindex, rfl, rfl⟩ |
          ⟨t, t', hindex, rfl, rfl⟩
        · refine ⟨.incremental entry t, ?_, rfl⟩
          rw [FieldRepresentation.bytes, hindex, ← hincremental h40 h7F, List.cons_append]
        · refine ⟨.incrementalNew t t', ?_, rfl⟩
          have hb : b = 0x40 := by simpa [hindex] using hincremental h40 h7F
          rw [FieldRepresentation.bytes, hb, List.cons_append, List.append_assoc]
      · obtain ⟨entry, t, hindex, rfl, rfl⟩ := readNoIndex_ok_iff.mp h
        obtain ⟨-, hb, hsmall⟩ := hlow h10
        refine ⟨.noIndex entry (hindex ▸ hsmall) t, ?_, rfl⟩
        rw [FieldRepresentation.bytes, hindex, ← hb, List.cons_append]
    · rintro ⟨f, hbytes, rfl⟩
      cases f with
      | indexed entry =>
        obtain ⟨rfl, rfl⟩ := List.cons.inj hbytes
        have hrange := entry_index_range entry
        obtain ⟨h7F, hindex, -⟩ := first_byte_index (show entry.index < 64 by omega)
        rw [if_pos h7F, hindex]
        exact readIndexed_ok_iff.mpr ⟨entry, rfl, rfl, rfl⟩
      | incremental entry t =>
        obtain ⟨rfl, rfl⟩ := List.cons.inj hbytes
        have hrange := entry_index_range entry
        obtain ⟨-, -, h40, h7F, hindex⟩ := first_byte_index (show entry.index < 64 by omega)
        rw [if_neg h7F, if_pos h40, hindex]
        exact readIncremental_ok_iff.mpr (.inl ⟨entry, t, rfl, rfl, rfl⟩)
      | incrementalNew t t' =>
        obtain ⟨rfl, rfl⟩ := List.cons.inj hbytes
        rw [if_neg (by decide), if_pos (by decide)]
        exact readIncremental_ok_iff.mpr
          (.inr ⟨t, t', by decide, List.append_assoc _ _ _, rfl⟩)
      | noIndex entry low t =>
        obtain ⟨rfl, rfl⟩ := List.cons.inj hbytes
        obtain ⟨h7F, h40, h10, hF0, hindex⟩ := first_byte_low low
        rw [if_neg h7F, if_neg h40, if_neg h10, if_pos hF0, hindex]
        exact readNoIndex_ok_iff.mpr ⟨entry, t, rfl, rfl, rfl⟩

theorem bytes_ne_nil (f : FieldRepresentation) : f.bytes ≠ [] := by
  cases f <;> simp [FieldRepresentation.bytes]

/-- The loop over a block. -/
def readBlock (headersSlice : List UInt8) : Except DecoderFault (List Line) :=
  if headersSlice = [] then .ok []
  else
    match _h : readField headersSlice with
    | .error fault => .error fault
    | .ok (line, rest) => (readBlock rest).map (line :: ·)
termination_by headersSlice.length
decreasing_by
  obtain ⟨f, hf, -⟩ := readField_ok_iff.mp _h
  have hpos := List.length_pos_iff.mpr (bytes_ne_nil f)
  have hlen := congrArg List.length hf
  rw [List.length_append] at hlen
  omega

theorem readBlock_step {block : List UInt8} {lines : List Line} (hblock : block ≠ []) :
    readBlock block = .ok lines ↔ ∃ line rest lines', readField block = .ok (line, rest) ∧
      readBlock rest = .ok lines' ∧ lines = line :: lines' := by
  rw [readBlock, if_neg hblock]
  split
  · next fault h =>
    simp [h]
  · next line rest h =>
    rw [map_ok_iff]
    constructor
    · rintro ⟨lines', hlines', rfl⟩
      exact ⟨line, rest, lines', h, hlines', rfl⟩
    · rintro ⟨line', rest', lines', h', hlines', rfl⟩
      cases h.symm.trans h'
      exact ⟨lines', hlines', rfl⟩

/-- A block is read to its end just when it is fields one behind the other, and then as these. -/
theorem readBlock_ok_iff (block : List UInt8) (lines : List Line) :
    readBlock block = .ok lines ↔
      ∃ fields : List FieldRepresentation,
        block = fields.flatMap FieldRepresentation.bytes ∧
          lines = fields.map FieldRepresentation.line := by
  constructor
  · intro h
    induction hn : block.length using Nat.strong_induction_on generalizing block lines with
    | _ n ih =>
      by_cases hblock : block = []
      · rw [readBlock, if_pos hblock] at h
        cases h
        exact ⟨[], hblock, rfl⟩
      · obtain ⟨line, rest, lines', hfield, hrest, rfl⟩ := (readBlock_step hblock).mp h
        obtain ⟨f, rfl, rfl⟩ := readField_ok_iff.mp hfield
        have hpos := List.length_pos_iff.mpr (bytes_ne_nil f)
        rw [List.length_append] at hn
        obtain ⟨fields, rfl, rfl⟩ := ih rest.length (by omega) rest lines' hrest rfl
        exact ⟨f :: fields, rfl, rfl⟩
  · rintro ⟨fields, rfl, rfl⟩
    induction fields with
    | nil =>
      rw [List.flatMap_nil, readBlock, if_pos rfl]
      rfl
    | cons f fields ih =>
      have hne : (f :: fields).flatMap FieldRepresentation.bytes ≠ [] := by
        rw [List.flatMap_cons]
        exact List.append_ne_nil_of_left_ne_nil (bytes_ne_nil f) _
      exact (readBlock_step hne).mpr
        ⟨f.line, _, _, readField_ok_iff.mpr ⟨f, rfl, rfl⟩, ih, rfl⟩

end ReaderHttp2

end DecodingProxy.Http20
