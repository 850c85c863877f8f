import DecodingProxy.Lib.Runs
import DecodingProxy.Runtime.Text

/-!
# `ParseByte`

The formatted text has a group of five chars for each byte, the last of them a space. `ToBytes`
splits at the spaces, and meets an empty piece behind the last group.
-/

namespace DecodingProxy.Buffers
open DecodingProxy.Runtime DecodingProxy.Runs

def charsPerBytes (n : Fin 16) : UInt16 := (ascii "0123456789ABCDEF").get n

def byteToHex (b : UInt8) : UInt16 × UInt16 :=
  have := b.toNat_lt
  (charsPerBytes ⟨b.toNat >>> 4, by rw [Nat.shiftRight_eq_div_pow]; omega⟩,
    charsPerBytes ⟨b.toNat &&& 0xF, Nat.and_lt_two_pow (n := 4) _ (by decide)⟩)

/-- The array that is filled, and the index of the next group. -/
structure HexChars where
  chars : Str
  k : ℕ

namespace HexChars

/-- `chars[index] = c`. -/
def set (index : ℕ) (c : UInt16) (chars : Str) : Except Fault Str :=
  if index < chars.length then .ok (chars.set index c) else .error (.raised .indexOutOfRange)

/-- One turn of the inner loop. -/
def turn (data : List UInt8) (s : HexChars) (i : ℕ) : Except Fault HexChars := do
  let pair := byteToHex (← Str.item data i)
  let chars ← set s.k 0x30 s.chars
  let chars ← set (s.k + 1) 0x78 chars
  let chars ← set (s.k + 2) pair.1 chars
  let chars ← set (s.k + 3) pair.2 chars
  let chars ← set (s.k + 4) 0x20 chars
  .ok { chars, k := s.k + 5 }

/-- `for (int i = 0; i < size; i++, k += 5)` -/
def turns (data : List UInt8) (size : ℕ) (s : HexChars) : Except Fault HexChars :=
  (List.range size).foldlM (turn data) s

/-- The array behind the chars that are filled in. -/
def blank (done : Str) (left : ℕ) : HexChars where
  chars := done ++ List.replicate left 0
  k := done.length

end HexChars

/-- `ToHexStringFormated` of a span. -/
def toHexStringFormated (data : List UInt8) : Except Fault Str := do
  let s ← HexChars.turns data data.length (.blank [] ((data.length <<< 2) + data.length))
  .ok s.chars

/-- `ToHexStringFormated` of a `ReadOnlySequence`. -/
def toHexStringFormatedSeq (seq : List (List UInt8)) : Except Fault Str := do
  let size := (seq.map List.length).sum
  let s ← seq.foldlM (fun s data => HexChars.turns data size s)
    (.blank [] ((size <<< 2) + size))
  .ok s.chars

/-- `Slice(2, 2)` of the piece, and its value. -/
def pieceToByte (piece : Str) : Except Fault UInt8 :=
  if piece.length < 4 then .error (.raised .argumentOutOfRange)
  else Str.parseHexByte ((piece.drop 2).take 2)

def toBytes (formatted : Str) : Except Fault (List UInt8) :=
  (formatted.split 0x20).mapM pieceToByte

/-! ### The text -/

/-- The chars of a byte, without the space behind them. -/
def hexDigits (b : UInt8) : Str := [0x30, 0x78, (byteToHex b).1, (byteToHex b).2]

def hexGroup (b : UInt8) : Str := hexDigits b ++ [0x20]

namespace HexChars

theorem set_append (done among : Str) (c d : UInt16) (rest : Str) :
    set (done.length + among.length) c (done ++ (among ++ d :: rest)) =
      .ok (done ++ (among ++ c :: rest)) := by
  rw [set, if_pos (by simp), List.set_append_right _ _ (by omega), Nat.add_sub_cancel_left,
    List.set_append_right _ _ le_rfl, Nat.sub_self]
  rfl

theorem turn_blank {data : List UInt8} {i : ℕ} {b : UInt8} (hb : data[i]? = some b) (done : Str)
    (left : ℕ) : turn data (blank done (left + 5)) i = .ok (blank (done ++ hexGroup b) left) := by
  let zeros := List.replicate left (0 : UInt16)
  let pair := byteToHex b
  have hitem : Str.item data i = .ok b := by rw [Str.item, hb]
  rw [turn, do_of_ok hitem]
  apply (do_of_ok (set_append done [] 0x30 0 (0 :: 0 :: 0 :: 0 :: zeros))).trans
  apply (do_of_ok (set_append done [0x30] 0x78 0 (0 :: 0 :: 0 :: zeros))).trans
  apply (do_of_ok (set_append done [0x30, 0x78] pair.1 0 (0 :: 0 :: zeros))).trans
  apply (do_of_ok (set_append done [0x30, 0x78, pair.1] pair.2 0 (0 :: zeros))).trans
  apply (do_of_ok (set_append done [0x30, 0x78, pair.1, pair.2] 0x20 0 zeros)).trans
  simp [blank, hexGroup, hexDigits, zeros, pair]

theorem turns_blank (data : List UInt8) {n : ℕ} (hn : n ≤ data.length) (left : ℕ) :
    turns data n (blank [] (5 * n + left)) = .ok (blank ((data.take n).flatMap hexGroup) left) := by
  induction n generalizing left with
  | zero => simp [turns, pure, Except.pure]
  | succ n ih =>
    have hlt : n < data.length := hn
    have hprevious := ih hlt.le (left + 5)
    have hblank : 5 * (n + 1) + left = 5 * n + (left + 5) := by omega
    rw [turns] at hprevious
    rw [turns, List.range_succ, List.foldlM_append, hblank, do_of_ok hprevious, List.foldlM_cons,
      do_of_ok (turn_blank (List.getElem?_eq_getElem hlt) _ left), List.take_succ_eq_append_getElem
      hlt, List.flatMap_append]
    simp [pure, Except.pure]

/-- Each turn reads its byte of the segment. -/
theorem size_le_of_turns {data : List UInt8} {size : ℕ} {s s' : HexChars}
    (h : turns data size s = .ok s') : size ≤ data.length := by
  induction size generalizing s' with
  | zero => exact Nat.zero_le _
  | succ n ih =>
    rw [turns, List.range_succ, List.foldlM_append] at h
    obtain ⟨m, hm, hlast⟩ := do_ok_iff.mp h
    rw [List.foldlM_cons] at hlast
    obtain ⟨t, hturn, _⟩ := do_ok_iff.mp hlast
    obtain ⟨b, hb, _⟩ := do_ok_iff.mp hturn
    rw [Str.item] at hb
    split at hb
    · next hsome => exact (List.getElem?_eq_some_iff.mp hsome).1
    · cases hb

end HexChars

theorem toHexStringFormated_eq (data : List UInt8) :
    toHexStringFormated data = .ok (data.flatMap hexGroup) := by
  have hsize : (data.length <<< 2) + data.length = 5 * data.length + 0 := by
    rw [Nat.shiftLeft_eq]
    omega
  have hturns := HexChars.turns_blank data le_rfl 0
  rw [toHexStringFormated, hsize, do_of_ok hturns, List.take_length]
  simp [HexChars.blank]

/-- Every segment is read as far as the whole sequence is long. -/
theorem toHexStringFormatedSeq_inv {seq : List (List UInt8)} {s : Str}
    (h : toHexStringFormatedSeq seq = .ok s) :
    ∀ data ∈ seq, (seq.map List.length).sum ≤ data.length := by
  obtain ⟨_, hfold, _⟩ := do_ok_iff.mp h
  clear h
  generalize (seq.map List.length).sum = size at hfold ⊢
  generalize HexChars.blank [] _ = s0 at hfold
  induction seq generalizing s0 with
  | nil => simp
  | cons data seq ih =>
    rw [List.foldlM_cons] at hfold
    obtain ⟨m, hm, hrest⟩ := do_ok_iff.mp hfold
    intro data' hdata
    cases hdata with
    | head => exact HexChars.size_le_of_turns hm
    | tail _ hdata => exact ih m hrest data' hdata

/-- Segments without a byte are passed over. -/
theorem toHexStringFormatedSeq_empty {seq : List (List UInt8)} (h : seq.flatten = []) :
    toHexStringFormatedSeq seq = .ok [] := by
  have hsize : (seq.map List.length).sum = 0 := by rw [← List.length_flatten, h, List.length_nil]
  have hfold : ∀ s, seq.foldlM (fun s data => HexChars.turns data 0 s) s = .ok s := by
    intro s
    clear h hsize
    induction seq with
    | nil => rfl
    | cons data seq ih => exact ih
  rw [toHexStringFormatedSeq, hsize, do_of_ok (hfold _)]
  rfl

theorem toHexStringFormatedSeq_eq_iff (seq : List (List UInt8)) :
    toHexStringFormatedSeq seq = toHexStringFormated seq.flatten ↔
      seq.length ≤ 1 ∨ seq.flatten = [] := by
  constructor
  · intro h
    rw [toHexStringFormated_eq] at h
    have hread := toHexStringFormatedSeq_inv h
    rw [← List.length_flatten] at hread
    match seq with
    | [] => exact .inl (Nat.zero_le _)
    | [_] => exact .inl le_rfl
    | first :: second :: rest =>
      right
      have hfirst := hread first (by simp)
      have hsecond := hread second (by simp)
      simp only [List.flatten_cons, List.length_append] at hfirst hsecond
      apply List.eq_nil_of_length_eq_zero
      simp only [List.flatten_cons, List.length_append]
      omega
  · rintro (hone | hempty)
    · match seq, hone with
      | [], _ => rfl
      | [data], _ =>
        rw [List.flatten_singleton, toHexStringFormatedSeq, toHexStringFormated]
        simp only [List.map_singleton, List.sum_singleton, List.foldlM_cons, List.foldlM_nil,
          bind_pure]
    · rw [toHexStringFormatedSeq_empty hempty, hempty]
      rfl

/-! ### The bytes -/

theorem not_isWhite_charsPerBytes (n : Fin 16) : Str.isWhite (charsPerBytes n) = false := by
  revert n
  decide

theorem hexValue_charsPerBytes (n : Fin 16) : Str.hexValue (charsPerBytes n) = some n.val := by
  revert n
  decide

theorem space_ne_charsPerBytes (n : Fin 16) : (0x20 : UInt16) ≠ charsPerBytes n := by
  revert n
  decide

theorem pieceToByte_hexDigits (b : UInt8) : pieceToByte (hexDigits b) = .ok b := by
  have hlow : b.toNat &&& 0xF = b.toNat % 16 := Nat.and_two_pow_sub_one_eq_mod b.toNat 4
  have hhigh : b.toNat >>> 4 = b.toNat / 16 := Nat.shiftRight_eq_div_pow b.toNat 4
  have hvalue : Str.hexadecimal [(byteToHex b).1, (byteToHex b).2] = b.toNat := by
    simp only [Str.hexadecimal, byteToHex, List.foldl_cons, List.foldl_nil,
      hexValue_charsPerBytes, Option.getD_some]
    omega
  have hdigits : Str.parseHexByte [(byteToHex b).1, (byteToHex b).2] =
      .ok (UInt8.ofNat (Str.hexadecimal [(byteToHex b).1, (byteToHex b).2])) := by
    have hbyte : ¬ 2 ^ 8 ≤ Str.hexadecimal [(byteToHex b).1, (byteToHex b).2] := by
      have := b.toNat_lt
      omega
    simpa [Str.parseHexByte, byteToHex, not_isWhite_charsPerBytes, hexValue_charsPerBytes,
      Str.isTrailing] using hbyte
  rw [hvalue, UInt8.ofNat_toNat] at hdigits
  exact hdigits

theorem space_not_mem_hexDigits (b : UInt8) : (0x20 : UInt16) ∉ hexDigits b := by
  simp [hexDigits, byteToHex, space_ne_charsPerBytes]

theorem split_groups (data : List UInt8) :
    Str.split 0x20 (data.flatMap hexGroup) = data.map hexDigits ++ [[]] := by
  induction data with
  | nil => rfl
  | cons b data ih =>
    rw [List.flatMap_cons, hexGroup, List.append_assoc, List.singleton_append,
      Str.split_append (space_not_mem_hexDigits b), ih]
    rfl

theorem mapM_hexDigits (data : List UInt8) (pieces : List Str) :
    (data.map hexDigits ++ pieces).mapM pieceToByte =
      (pieces.mapM pieceToByte).map (data ++ ·) := by
  induction data with
  | nil =>
    rw [List.map_nil, List.nil_append]
    cases pieces.mapM pieceToByte <;> rfl
  | cons b data ih =>
    rw [List.map_cons, List.cons_append, List.mapM_cons, do_of_ok (pieceToByte_hexDigits b), ih]
    cases pieces.mapM pieceToByte <;> rfl

/-- The empty piece behind the last space is too short. -/
theorem toBytes_groups (data : List UInt8) :
    toBytes (data.flatMap hexGroup) = .error (.raised .argumentOutOfRange) := by
  rw [toBytes, split_groups, mapM_hexDigits]
  rfl

/-- Without the last space the text is that of the bytes. -/
theorem toBytes_groups_dropLast (data : List UInt8) (b : UInt8) :
    toBytes ((data ++ [b]).flatMap hexGroup).dropLast = .ok (data ++ [b]) := by
  have htext : ((data ++ [b]).flatMap hexGroup).dropLast =
      data.flatMap hexGroup ++ hexDigits b := by
    rw [List.flatMap_append, List.flatMap_singleton, hexGroup, ← List.append_assoc,
      List.dropLast_concat]
  have hsplit : Str.split 0x20 (data.flatMap hexGroup ++ hexDigits b) =
      (data ++ [b]).map hexDigits := by
    clear htext
    induction data with
    | nil => exact Str.split_of_not_mem (space_not_mem_hexDigits b)
    | cons c data ih =>
      rw [List.flatMap_cons, hexGroup, List.append_assoc, List.append_assoc, List.singleton_append,
        Str.split_append (space_not_mem_hexDigits c), ih]
      rfl
  rw [htext, toBytes, hsplit, ← List.append_nil ((data ++ [b]).map hexDigits), mapM_hexDigits]
  simp [pure, Except.pure, Except.map]

def RoundTrip (b : List UInt8) : Prop := (do toBytes (← toHexStringFormated b)) = .ok b

def SegmentationIndependent (b : List UInt8) : Prop :=
  ∀ seq : List (List UInt8), seq.flatten = b → toHexStringFormatedSeq seq = toHexStringFormated b

/-- No text is read back, and more than one segment is read only where there is no byte. -/
theorem not_roundTrip (b : List UInt8) :
    ¬ RoundTrip b ∧ ∀ seq : List (List UInt8), seq.flatten = b →
      (toHexStringFormatedSeq seq = toHexStringFormated b ↔ seq.length ≤ 1 ∨ b = []) := by
  constructor
  · rw [RoundTrip, do_of_ok (toHexStringFormated_eq b), toBytes_groups]
    exact nofun
  · rintro seq rfl
    exact toHexStringFormatedSeq_eq_iff seq

/-- The text `0x0A 0x0B ` and the segments of one byte each. -/
theorem roundTrip_throws :
    (∃ s, toHexStringFormated [0x0A, 0x0B] = .ok s ∧
        toBytes s = .error (.raised .argumentOutOfRange)) ∧
      toHexStringFormatedSeq [[0x0A], [0x0B]] = .error (.raised .indexOutOfRange) ∧
      ¬ RoundTrip [0x0A, 0x0B] ∧ ¬ SegmentationIndependent [0x0A, 0x0B] := by
  have hseq : toHexStringFormatedSeq [[0x0A], [0x0B]] = .error (.raised .indexOutOfRange) := by
    rfl
  refine ⟨⟨_, toHexStringFormated_eq _, toBytes_groups _⟩, hseq, ?_, ?_⟩
  · rw [RoundTrip, do_of_ok (toHexStringFormated_eq _), toBytes_groups]
    exact nofun
  · intro h
    have heq := h [[0x0A], [0x0B]] rfl
    rw [hseq, toHexStringFormated_eq] at heq
    cases heq

end DecodingProxy.Buffers
