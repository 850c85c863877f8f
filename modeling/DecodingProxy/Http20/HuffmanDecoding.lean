import DecodingProxy.Http20.HuffmanTree

/-!
# What `HuffmanDecoder` accepts

Behind every byte the decoder has symbols, the way it went down from the root, and less than a byte
of bits, which together are what it was fed. In the end a way and these bits are the tail no word
begins; of it only the bits are looked at, so of a tail of a byte and more the decoder does not see
all. The symbol for the end of the string is refused where a whole byte of bits is there to find it
in, and becomes a byte 0 behind it.
-/

namespace DecodingProxy.Http20
open DecodingProxy.Bits DecodingProxy.PrefixCodes DecodingProxy.Runs HuffmanCoding

/-- The cast of a symbol to a byte. -/
def byteOf (s : Fin 257) : UInt8 := UInt8.ofNat s.val

namespace HuffmanDecoder

/-- The bits that were read and not yet matched. -/
def Progress.pending (p : Progress) : List Bool := Bits.bits p.bits p.current.getLsbD

@[simp] theorem Progress.length_pending (p : Progress) : p.pending.length = p.bits :=
  length_bits _ _

/-- Fewer bits, filled up to eight. -/
theorem byteBits_low {k : ℕ} (hk : k ≤ 8) (current : BitVec 32) :
    (byteBits (UInt8.ofBitVec ((current <<< (8 - k)).setWidth 8))).take k =
      bits k current.getLsbD := by
  rw [byteBits_ofBitVec, take_bits hk]
  refine bits_congr fun i hi => ?_
  have hlt : i + (8 - k) < 32 := by omega
  have hlt' : i + (8 - k) < 8 := by omega
  have hge : ¬ i + (8 - k) < 8 - k := by omega
  simp only [BitVec.getLsbD_setWidth, BitVec.getLsbD_shiftLeft, hlt, hlt', hge, decide_true,
    decide_false, Bool.not_false, Bool.true_and, Nat.add_sub_cancel]

/-- What was fed is the symbols' words, the way to the node and the bits behind it. -/
structure Reads (read : List Bool) (ss : List (Fin 257)) (path : List Bool) (p : Progress) :
    Prop where
  consumed : read = code.write ss ++ path ++ p.pending
  reached : Reached path p.node
  aligned : 8 ∣ path.length
  written : p.baos = ss.map byteOf

/-- The end of the string was found with two bits and more behind it. -/
structure RefusesEos (read : List Bool) (ss : List (Fin 257)) (rest : List Bool) : Prop where
  consumed : read = code.write (ss ++ [eos]) ++ rest
  seen : 2 ≤ rest.length

variable {root : Node} {read path : List Bool} {ss : List (Fin 257)} {p : Progress}

theorem Reads.terminal (h : Reads read ss path p) (hroot : Holds (restOf []) root) {s : Fin 257}
    {n : ℕ} (hs : code.code s = path ++ p.pending.take n) :
    Reads read (ss ++ [s]) []
      { p with node := root, bits := p.bits - n, baos := p.baos ++ [byteOf s] } where
  consumed := by
    have hpending : p.pending = p.pending.take n ++ Bits.bits (p.bits - n) p.current.getLsbD := by
      rw [← drop_bits]
      exact (List.take_append_drop n p.pending).symm
    rw [h.consumed, code.write_append, code.write_cons, code.write_nil, hs]
    conv_lhs => rw [hpending]
    simp [Progress.pending]
  reached := reached_root hroot
  aligned := by simp
  written := by simp [h.written]

theorem Reads.internal (h : Reads read ss path p) {c : UInt8} {node : Node}
    (hc : byteBits c = p.pending.take 8) (hnode : Reached (path ++ byteBits c) node) :
    Reads read ss (path ++ byteBits c) { p with node, bits := p.bits - 8 } where
  consumed := by
    have hpending : p.pending = byteBits c ++ Bits.bits (p.bits - 8) p.current.getLsbD := by
      rw [hc, ← drop_bits]
      exact (List.take_append_drop 8 p.pending).symm
    rw [h.consumed]
    conv_lhs => rw [hpending]
    simp [Progress.pending]
  reached := hnode
  aligned := by
    rw [List.length_append, length_byteBits]
    exact (Nat.dvd_add_right h.aligned).mpr (dvd_refl 8)
  written := h.written

/-- The word of the end of the string has six bits in its last byte. -/
theorem eos_last_byte {path bits : List Bool} (h : code.code eos = path ++ bits)
    (haligned : 8 ∣ path.length) (hbits : 0 < bits.length ∧ bits.length ≤ 8) : bits.length = 6 := by
  have hlen := congrArg List.length h
  rw [code_eos, List.length_replicate, List.length_append, maxLength] at hlen
  omega

theorem drain_reads (hroot : Holds (restOf []) root) {rounds : ℕ} (h : Reads read ss path p)
    (heos : eos ∉ ss) (hbits : p.bits ≤ 32) (hrounds : p.bits ≤ rounds) :
    (∃ p' ss' path', drain root rounds p = .ok p' ∧ Reads read ss' path' p' ∧ eos ∉ ss' ∧
      p'.bits < 8) ∨
    ∃ ss' rest, drain root rounds p = .error (.io "EOS Decoded") ∧ RefusesEos read ss' rest := by
  induction rounds generalizing p ss path with
  | zero =>
    refine .inl ⟨p, ss, path, ?_, h, heos, ?_⟩
    · rw [drain, if_pos (by omega)]
    · omega
  | succ rounds ih =>
    rw [drain]
    by_cases hless : p.bits < 8
    · exact .inl ⟨p, ss, path, by rw [if_pos hless], h, heos, hless⟩
    have hc : byteBits _ = p.pending.take 8 :=
      byteBits_sshiftRight (Nat.not_lt.mp hless) hbits p.current
    simp only [if_neg hless]
    generalize UInt8.ofBitVec ((p.current.sshiftRight (p.bits - 8)).setWidth 8) = c at hc
    rcases h.reached.child c with ⟨s, n, hchild, hn, hn8, hs⟩ | ⟨kids, hchild, hkids⟩
    · rw [hc, List.take_take, Nat.min_eq_left hn8] at hs
      simp only [hchild, bind, Except.bind]
      have hnext := h.terminal hroot hs
      by_cases hseos : s = eos
      · subst hseos
        refine .inr ⟨ss, Bits.bits (p.bits - n) p.current.getLsbD, ?_, ?_, ?_⟩
        · rw [if_pos (show eos.val = HUFFMAN_EOS from rfl)]
        · simpa [Progress.pending] using hnext.consumed
        · have hsix := eos_last_byte hs h.aligned (by simp; omega)
          rw [List.length_take, Progress.length_pending] at hsix
          rw [length_bits]
          omega
      · have hval : s.val ≠ HUFFMAN_EOS := fun hval => hseos (Fin.ext hval)
        rw [if_neg hval]
        refine ih hnext ?_ ?_ ?_
        · simpa [heos] using Ne.symm hseos
        · exact (Nat.sub_le _ _).trans hbits
        · show p.bits - n ≤ rounds
          omega
    · simp only [hchild, bind, Except.bind]
      refine ih (h.internal hc hkids) heos ?_ ?_
      · exact (Nat.sub_le _ _).trans hbits
      · show p.bits - 8 ≤ rounds
        omega

theorem feed_reads (hroot : Holds (restOf []) root) (h : Reads read ss path p) (heos : eos ∉ ss)
    (hbits : p.bits < 8) (b : UInt8) :
    (∃ p' ss' path', feed root p b = .ok p' ∧ Reads (read ++ byteBits b) ss' path' p' ∧
      eos ∉ ss' ∧ p'.bits < 8) ∨
    ∃ ss' rest, feed root p b = .error (.io "EOS Decoded") ∧
      RefusesEos (read ++ byteBits b) ss' rest := by
  have hpending := bits_shiftLeft_or (m := p.bits) (k := 8) (by omega) p.current
    (b.toBitVec.setWidth 32) fun i hi => by
      rw [BitVec.getLsbD_setWidth, BitVec.getLsbD_of_ge _ _ hi, Bool.and_false]
  refine drain_reads hroot ⟨?_, h.reached, h.aligned, h.written⟩ heos ?_ le_rfl
  · rw [h.consumed, List.append_assoc]
    exact congrArg (code.write ss ++ path ++ ·) hpending.symm
  · show p.bits + 8 ≤ 32
    omega

theorem RefusesEos.append {rest : List Bool} (h : RefusesEos read ss rest) (later : List Bool) :
    RefusesEos (read ++ later) ss (rest ++ later) where
  consumed := by rw [h.consumed, List.append_assoc]
  seen := by
    have := h.seen
    rw [List.length_append]
    omega

/-- The loop over the bytes. -/
theorem foldlM_feed_reads (hroot : Holds (restOf []) root) (buf : List UInt8)
    (h : Reads read ss path p) (heos : eos ∉ ss) (hbits : p.bits < 8) :
    (∃ p' ss' path', buf.foldlM (feed root) p = .ok p' ∧
      Reads (read ++ bytesBits buf) ss' path' p' ∧ eos ∉ ss' ∧ p'.bits < 8) ∨
    ∃ ss' rest, buf.foldlM (feed root) p = .error (.io "EOS Decoded") ∧
      RefusesEos (read ++ bytesBits buf) ss' rest := by
  induction buf generalizing read ss path p with
  | nil => exact .inl ⟨p, ss, path, rfl, by simpa using h, heos, hbits⟩
  | cons b buf ih =>
    rw [List.foldlM_cons, bytesBits_cons, ← List.append_assoc]
    rcases feed_reads hroot h heos hbits b with
      ⟨p', ss', path', hfeed, hreads, heos', hbits'⟩ | ⟨ss', rest, hfeed, hrefuses⟩
    · rw [hfeed]
      exact ih hreads heos' hbits'
    · rw [hfeed]
      exact .inr ⟨ss', _, rfl, hrefuses.append _⟩

/-- What is left when the last loop is over. An end of the string is the last symbol, with one bit
behind it at most. -/
structure Finished (read : List Bool) (ss : List (Fin 257)) (path : List Bool) (p : Progress) :
    Prop where
  parse : code.Parse read ss (path ++ p.pending)
  aligned : 8 ∣ path.length
  written : p.baos = ss.map byteOf
  bits : p.bits < 8
  eosLast : eos ∈ ss → eos ∉ ss.dropLast ∧ (path ++ p.pending).length ≤ 1

/-- The loop stands still where no word ends in what is left. -/
theorem Reads.finished (h : Reads read ss path p) (node : Node) (hbits : p.bits < 8)
    (hended : ∀ s, ¬ code.code s <+: path ++ p.pending)
    (heos : eos ∈ ss → eos ∉ ss.dropLast ∧ (path ++ p.pending).length ≤ 1) :
    Finished read ss path { p with node } :=
  ⟨⟨h.consumed.trans (List.append_assoc _ _ _), hended⟩, h.aligned, h.written, hbits, heos⟩

theorem finish_no_bits (h : Reads read ss path p) (hzero : p.bits = 0)
    (heos : eos ∈ ss → eos ∉ ss.dropLast ∧ (path ++ p.pending).length ≤ 1) :
    Finished read ss path p := by
  refine h.finished p.node (by omega) (fun s => ?_) heos
  have hnil : p.pending = [] := by rw [Progress.pending, hzero, bits_zero]
  rw [hnil, List.append_nil]
  exact h.reached.not_prefix s

/-- The last loop goes on while a word ends in the bits that are left. -/
theorem finish_finished (hroot : Holds (restOf []) root) {rounds : ℕ} (h : Reads read ss path p)
    (hbits : p.bits < 8) (hrounds : p.bits ≤ rounds)
    (heos : eos ∈ ss → eos ∉ ss.dropLast ∧ (path ++ p.pending).length ≤ 1) :
    ∃ p' ss' path', finish root rounds p = .ok p' ∧ Finished read ss' path' p' := by
  induction rounds generalizing p ss path with
  | zero =>
    have hzero : p.bits = 0 := Nat.le_zero.mp hrounds
    exact ⟨p, ss, path, by rw [finish, if_pos hzero], finish_no_bits h hzero heos⟩
  | succ rounds ih =>
    rw [finish]
    by_cases hzero : p.bits = 0
    · exact ⟨p, ss, path, by rw [if_pos hzero], finish_no_bits h hzero heos⟩
    simp only [if_neg hzero]
    have hc : (byteBits _).take p.bits = p.pending := byteBits_low hbits.le p.current
    generalize UInt8.ofBitVec ((p.current <<< (8 - p.bits)).setWidth 8) = c at hc
    have hpending : p.pending <+: byteBits c := hc ▸ List.take_prefix _ _
    rcases h.reached.child c with ⟨s, n, hchild, hn, hn8, hs⟩ | ⟨kids, hchild, hkids⟩
    · simp only [hchild, bind, Except.bind]
      by_cases hle : n ≤ p.bits
      · rw [if_pos hle]
        have htake : (byteBits c).take n = p.pending.take n := by
          rw [← hc, List.take_take, Nat.min_eq_left hle]
        rw [htake] at hs
        refine ih (h.terminal hroot hs) ?_ ?_ fun heos' => ?_
        · exact (Nat.sub_le _ _).trans_lt hbits
        · show p.bits - n ≤ rounds
          omega
        -- another word has no room behind the end of the string
        have hnot : eos ∉ ss := by
          intro hmem
          have hlen := congrArg List.length hs
          have := (length_word s).1
          have hshort := (heos hmem).2
          rw [length_code, List.length_append, List.length_take, Progress.length_pending] at hlen
          rw [List.length_append, Progress.length_pending] at hshort
          omega
        obtain rfl : eos = s := by simpa [hnot] using heos'
        have hsix := eos_last_byte hs h.aligned (by simp; omega)
        rw [List.length_take, Progress.length_pending] at hsix
        refine ⟨by simpa using hnot, ?_⟩
        rw [List.nil_append, Progress.length_pending]
        show p.bits - n ≤ 1
        omega
      · rw [if_neg hle]
        refine ⟨_, ss, path, rfl, h.finished _ hbits (fun t ht => ?_) heos⟩
        -- the word that begins with all that is left is longer than this
        have hword : path ++ p.pending <+: code.code s := by
          rw [hs, List.prefix_append_right_inj, ← hc]
          exact List.take_prefix_take_left (by omega)
        obtain rfl := code.prefixFree t s (ht.trans hword)
        have hlen := ht.length_le
        rw [hs, List.length_append, List.length_append, List.length_take, length_byteBits,
          Progress.length_pending] at hlen
        omega
    · simp only [hchild, bind, Except.bind]
      refine ⟨_, ss, path, rfl, h.finished _ hbits (fun t ht => ?_) heos⟩
      exact hkids.not_prefix t (ht.trans ((List.prefix_append_right_inj _).mpr hpending))

/-- The mask of the padding looks at the bits that are left. -/
theorem mask_iff {k : ℕ} (hk : k < 8) (current : BitVec 32) :
    current &&& (1#32 <<< k - 1#32) = 1#32 <<< k - 1#32 ↔
      bits k current.getLsbD = List.replicate k true := by
  have hmask : ∀ k < 8, ∀ i < 32, (1#32 <<< k - 1#32).getLsbD i = decide (i < k) := by
    decide
  rw [← bits_const]
  constructor
  · intro h
    refine bits_congr fun i hi => ?_
    have hbit := congrArg (BitVec.getLsbD · i) h
    simpa only [BitVec.getLsbD_and, hmask k hk i (by omega), hi, decide_true, Bool.and_true]
      using hbit
  · intro h
    refine BitVec.eq_of_getLsbD_eq fun i hi => ?_
    rw [BitVec.getLsbD_and, hmask k hk i hi]
    by_cases hik : i < k
    · rw [bits_inj_on h i hik, Bool.true_and]
    · rw [decide_eq_false hik, Bool.and_false]

end HuffmanDecoder

namespace HuffmanCoding

/-- The bits of a tail behind its whole bytes. -/
def padding (tail : List Bool) : List Bool := tail.drop (8 * (tail.length / 8))

/-- What a decoder gives on the words of `ss` with a tail behind them. -/
def verdict (ss : List (Fin 257)) (tail : List Bool) : Except DecoderFault (List UInt8) :=
  if eos ∈ ss.dropLast ∨ eos ∈ ss ∧ 2 ≤ tail.length then .error (.io "EOS Decoded")
  else if false ∈ padding tail then .error (.io "Invalid Padding")
  else .ok (ss.map byteOf)

theorem padding_append {path pending : List Bool} (h : 8 ∣ path.length)
    (hpending : pending.length < 8) : padding (path ++ pending) = pending := by
  have hlen : 8 * ((path ++ pending).length / 8) = path.length := by
    rw [List.length_append]
    omega
  rw [padding, hlen, List.drop_left]

theorem verdict_finished {read path : List Bool} {ss : List (Fin 257)}
    {p : HuffmanDecoder.Progress} (h : HuffmanDecoder.Finished read ss path p) :
    (if p.current &&& (1#32 <<< p.bits - 1#32) ≠ 1#32 <<< p.bits - 1#32 then
      .error (.io "Invalid Padding") else .ok p.baos) = verdict ss (path ++ p.pending) := by
  have hnoEos : ¬ (eos ∈ ss.dropLast ∨ eos ∈ ss ∧ 2 ≤ (path ++ p.pending).length) := by
    rintro (hmem | ⟨hmem, hlen⟩)
    · exact (h.eosLast (List.mem_of_mem_dropLast hmem)).1 hmem
    · have := (h.eosLast hmem).2
      omega
  have hpadding : padding (path ++ p.pending) = p.pending :=
    padding_append h.aligned (by simpa using h.bits)
  have hones : false ∈ p.pending ↔
      p.current &&& (1#32 <<< p.bits - 1#32) ≠ 1#32 <<< p.bits - 1#32 := by
    rw [ne_eq, HuffmanDecoder.mask_iff h.bits, List.eq_replicate_iff]
    constructor
    · rintro hmem ⟨-, hall⟩
      exact absurd (hall _ hmem) (by decide)
    · intro hnot
      by_contra hmem
      exact hnot ⟨by simp, fun b hb => by cases b <;> [exact absurd hb hmem; rfl]⟩
  rw [verdict, if_neg hnoEos, hpadding]
  by_cases hmem : false ∈ p.pending
  · rw [if_pos (hones.mp hmem), if_pos hmem]
  · rw [if_neg (fun hne => hmem (hones.mpr hne)), if_neg hmem, h.written]

theorem verdict_refusesEos {read rest : List Bool} {ss : List (Fin 257)}
    (h : HuffmanDecoder.RefusesEos read ss rest) {ss' : List (Fin 257)} {tail : List Bool}
    (hparse : code.Parse read ss' tail) : verdict ss' tail = .error (.io "EOS Decoded") := by
  obtain ⟨ss₂, tail₂, hrest⟩ := code.exists_parse rest
  have hparse₂ := hrest.append (ss ++ [eos])
  rw [← h.consumed] at hparse₂
  obtain ⟨rfl, rfl⟩ := hparse.unique hparse₂
  rw [verdict, if_pos]
  rcases List.eq_nil_or_concat ss₂ with rfl | ⟨ss₃, s, rfl⟩
  · refine .inr ⟨by simp, ?_⟩
    have heq : rest = tail := hrest.eq
    rw [← heq]
    exact h.seen
  · left
    rw [List.concat_eq_append, ← List.append_assoc, List.dropLast_concat]
    simp

/-- A text has one reading as words with a tail, and the decoder judges it. -/
theorem decode_eq_verdict {buf : List UInt8} {ss : List (Fin 257)} {tail : List Bool}
    (h : code.Parse (bytesBits buf) ss tail) : decode buf = verdict ss tail := by
  obtain ⟨root, hnew, hroot⟩ := root_holds
  have hstart : HuffmanDecoder.Reads [] [] []
      { node := root, current := 0, bits := 0, baos := [] } :=
    ⟨rfl, reached_root hroot, by simp, rfl⟩
  have hdecode : decode buf = HuffmanDecoder.decodeFrom root buf := by
    rw [decode, hnew]
    rfl
  rw [hdecode, HuffmanDecoder.decodeFrom]
  rcases HuffmanDecoder.foldlM_feed_reads hroot buf hstart (by simp) (Nat.zero_lt_succ 7) with
    ⟨p, ss₁, path₁, hfeed, hreads, heos, hbits⟩ | ⟨ss₁, rest, hfeed, hrefuses⟩
  · obtain ⟨p', ss₂, path₂, hfinish, hfinished⟩ :=
      HuffmanDecoder.finish_finished hroot hreads hbits le_rfl fun hmem => absurd hmem heos
    obtain ⟨rfl, rfl⟩ := h.unique hfinished.parse
    rw [hfeed]
    simp only [bind, Except.bind, hfinish]
    exact verdict_finished hfinished
  · rw [hfeed]
    exact (verdict_refusesEos hrefuses h).symm

end HuffmanCoding

end DecodingProxy.Http20
