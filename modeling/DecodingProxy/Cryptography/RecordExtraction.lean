import DecodingProxy.Cryptography.TlsReader

/-!
# Records extracted from a split stream

A stream of TLS records is cut into appends at any place. The reader should return
each record once; it returns the first record again on every call from the one that
completes it on, because the bytes of a returned record stay in front of the array.
-/

namespace DecodingProxy.Cryptography
open DecodingProxy.Arrays DecodingProxy.Runs DecodingProxy.Runtime

/-- Five header bytes, then as many bytes as the last two of them declare. -/
def IsRecord (b : List UInt8) : Prop :=
  ∃ type v0 v1 l0 l1 payload, b = type :: v0 :: v1 :: l0 :: l1 :: payload ∧
    payload.length = 256 * l0.toNat + l1.toNat

/-- Well-formed records and the pieces their concatenation arrives in. -/
structure RecordStream where
  records : List (List UInt8)
  appends : List (List UInt8)
  wellFormed : ∀ r ∈ records, IsRecord r
  split : appends.flatten = records.flatten

structure Extraction where
  reader : TlsReader
  frames : List TlsFrame := []
  deriving DecidableEq, Repr

def Extraction.append (pool : ArrayPool) (x : Extraction) (data : List UInt8) :
    Except Fault Extraction := do
  let (reader, frame) ← x.reader.tryParseOnAppendData pool data
  .ok ⟨reader, x.frames ++ frame.toList⟩

def extract (pool : ArrayPool) (appends : List (List UInt8)) : Except Fault Extraction := do
  let reader ← TlsReader.new pool
  run (Extraction.append pool) ⟨reader, []⟩ appends

def Extraction.returned (x : Extraction) : List (List UInt8) :=
  x.frames.map TlsFrame.dataWholeFrame

/-- The run returns exactly the records, and after every call the reader holds only
what came after the records it has returned. -/
def ExtractsOnce (pool : ArrayPool) (s : RecordStream) : Prop :=
  (∃ x, extract pool s.appends = .ok x ∧ x.returned = s.records) ∧
    ∀ made, made <+: s.appends → ∀ x, extract pool made = .ok x →
      x.reader.buffered = made.flatten.drop x.returned.flatten.length

theorem IsRecord.five_le {b : List UInt8} (h : IsRecord b) : sizeRecord ≤ b.length := by
  obtain ⟨type, v0, v1, l0, l1, payload, rfl, -⟩ := h
  simp [sizeRecord]

theorem IsRecord.toStruct {b frame : List UInt8} (h : IsRecord b)
    (hp : frame.take sizeRecord = b.take sizeRecord) :
    ∃ header, TlsRecord.toStruct frame = .ok header ∧
      header.length + sizeRecord = b.length := by
  obtain ⟨type, v0, v1, l0, l1, payload, rfl, hlen⟩ := h
  obtain ⟨rest, rfl⟩ : ∃ rest, frame = type :: v0 :: v1 :: l0 :: l1 :: rest := by
    refine ⟨frame.drop sizeRecord, ?_⟩
    conv_lhs => rw [← List.take_append_drop sizeRecord frame, hp]
    rfl
  refine ⟨_, rfl, ?_⟩
  simp only [TlsRecord.length, reverseEndians_littleEndian, List.length_cons, hlen, sizeRecord]

theorem peekFrame_short {first frame : List UInt8} {offset : ℕ} (h : IsRecord first)
    (hp : frame.take offset <+: first) (hlt : offset < first.length)
    (hle : offset ≤ frame.length) : TlsReader.peekFrame frame offset = .ok none := by
  unfold TlsReader.peekFrame
  split_ifs with h5
  · have htake : frame.take sizeRecord = first.take sizeRecord := by
      rw [List.prefix_iff_eq_take, List.length_take_of_le hle] at hp
      rw [← Nat.min_eq_left h5, ← List.take_take, hp, List.take_take]
    obtain ⟨header, hs, hlen⟩ := h.toStruct htake
    rw [hs]
    change Except.ok (if header.length + sizeRecord ≤ offset then _ else none) = _
    rw [if_neg (by omega)]
  · rfl

theorem peekFrame_complete {first frame : List UInt8} {offset : ℕ} (h : IsRecord first)
    (hp : first <+: frame.take offset) (hle : first.length ≤ offset) :
    ∃ f, TlsReader.peekFrame frame offset = .ok (some f) ∧ f.dataWholeFrame = first := by
  have hframe : frame.take first.length = first := by
    rw [List.prefix_iff_eq_take, List.take_take, Nat.min_eq_left hle] at hp
    exact hp.symm
  have h5 := h.five_le
  have htake : frame.take sizeRecord = first.take sizeRecord := by
    rw [← hframe, List.take_take, Nat.min_eq_left (h5.trans (Nat.le_refl _))]
  obtain ⟨header, hs, hlen⟩ := h.toStruct htake
  unfold TlsReader.peekFrame
  rw [if_pos (h5.trans hle), hs]
  refine ⟨.new header (frame.take (header.length + sizeRecord)), ?_, ?_⟩
  · change Except.ok (if header.length + sizeRecord ≤ offset then _ else none) = _
    rw [if_pos (by omega)]
  · rw [hlen]
    exact hframe

/-! ### Runs -/

theorem extract_concat_ok_iff {pool : ArrayPool} {made : List (List UInt8)}
    {data : List UInt8} {x : Extraction} :
    extract pool (made ++ [data]) = .ok x ↔ ∃ y, extract pool made = .ok y ∧
      ∃ f, y.reader.tryParseOnAppendData pool data = .ok (x.reader, f) ∧
        x.frames = y.frames ++ f.toList := by
  simp only [extract, do_ok_iff, run_concat_ok_iff, Extraction.append]
  constructor
  · rintro ⟨r, hr, y, hy, ⟨t, f⟩, ht, hx⟩
    cases hx
    exact ⟨y, ⟨r, hr, hy⟩, f, ht, rfl⟩
  · rintro ⟨y, ⟨r, hr, hy⟩, f, ht, hx⟩
    exact ⟨r, hr, y, hy, (x.reader, f), ht, by rw [← hx]⟩

/-- The array never gives anything up: it holds all that was ever appended. -/
theorem extract_buffered {pool : ArrayPool} {made : List (List UInt8)} {x : Extraction}
    (h : extract pool made = .ok x) : x.reader.Sound ∧ x.reader.buffered = made.flatten := by
  induction made using List.reverseRecOn generalizing x with
  | nil =>
    obtain ⟨r, hr, hx⟩ := do_ok_iff.mp h
    cases hx
    exact TlsReader.new_spec hr
  | append_singleton made data ih =>
    obtain ⟨y, hy, f, ht, -⟩ := extract_concat_ok_iff.mp h
    obtain ⟨hs, hb⟩ := ih hy
    obtain ⟨hs', hb', -⟩ := TlsReader.tryParseOnAppendData_spec hs ht
    exact ⟨hs', by rw [hb', hb]; simp⟩

/-- How many of the calls ended with at least `n` bytes appended. -/
def callsFrom (n : ℕ) (made : List (List UInt8)) : ℕ :=
  (List.range made.length).countP fun i => n ≤ (made.take (i + 1)).flatten.length

theorem callsFrom_concat (n : ℕ) (made : List (List UInt8)) (data : List UInt8) :
    callsFrom n (made ++ [data]) =
      callsFrom n made + if n ≤ (made ++ [data]).flatten.length then 1 else 0 := by
  have hall : (made ++ [data]).take (made.length + 1) = made ++ [data] :=
    List.take_of_length_le (by simp)
  have hcount : (List.range made.length).countP
      (fun i => n ≤ ((made ++ [data]).take (i + 1)).flatten.length) = callsFrom n made := by
    apply List.countP_congr
    intro i hi
    have hi' : i < made.length := List.mem_range.mp hi
    rw [List.take_append_of_le_length (by omega)]
  simp only [callsFrom, List.length_append, List.length_singleton, List.range_succ,
    List.countP_append, List.countP_singleton, hall] at hcount ⊢
  rw [hcount]
  simp

theorem extract_frames {pool : ArrayPool} {first : List UInt8} (hf : IsRecord first)
    {made : List (List UInt8)} {x : Extraction} (h : extract pool made = .ok x)
    (hp : made.flatten <+: first ∨ first <+: made.flatten) :
    x.returned = List.replicate (callsFrom first.length made) first := by
  induction made using List.reverseRecOn generalizing x with
  | nil =>
    obtain ⟨r, -, hx⟩ := do_ok_iff.mp h
    cases hx
    rfl
  | append_singleton made data ih =>
    obtain ⟨y, hy, f, ht, hframes⟩ := extract_concat_ok_iff.mp h
    obtain ⟨hs, hb⟩ := extract_buffered h
    obtain ⟨-, -, hpeek⟩ :=
      TlsReader.tryParseOnAppendData_spec (extract_buffered hy).1 ht
    have hoff : x.reader.offset = (made ++ [data]).flatten.length := by
      rw [← hb, TlsReader.buffered, List.length_take_of_le hs.fits]
    have hpre : made.flatten <+: (made ++ [data]).flatten := by simp
    have hprev : made.flatten <+: first ∨ first <+: made.flatten := by
      rcases hp with hp | hp
      · exact .inl (hpre.trans hp)
      · exact List.prefix_or_prefix_of_prefix hpre hp
    have hret : x.returned = y.returned ++ f.toList.map TlsFrame.dataWholeFrame := by
      simp [Extraction.returned, hframes]
    rw [hret, ih hy hprev, callsFrom_concat]
    by_cases hle : first.length ≤ (made ++ [data]).flatten.length
    · have hfirst : first <+: (made ++ [data]).flatten := by
        rcases hp with hp | hp
        · exact (hp.eq_of_length_le hle).symm ▸ List.prefix_rfl
        · exact hp
      rw [← hb] at hfirst
      obtain ⟨g, hg, hwhole⟩ := peekFrame_complete hf hfirst (hoff ▸ hle)
      obtain rfl := Except.ok.inj (hpeek.symm.trans hg)
      rw [if_pos hle, List.replicate_succ']
      simp [hwhole]
    · have hshort : (made ++ [data]).flatten <+: first := by
        rcases hp with hp | hp
        · exact hp
        · exact absurd hp.length_le hle
      rw [← hb] at hshort
      have hg := peekFrame_short hf hshort (by omega) hs.fits
      obtain rfl := Except.ok.inj (hpeek.symm.trans hg)
      rw [if_neg hle]
      simp

theorem extract_empty (pool : ArrayPool) {made : List (List UInt8)} (h : made.flatten = []) :
    ∃ x, extract pool made = .ok x ∧ x.frames = [] ∧ x.reader.offset = 0 := by
  induction made using List.reverseRecOn with
  | nil => exact ⟨⟨_, []⟩, by rw [extract, TlsReader.new_eq]; rfl, rfl, rfl⟩
  | append_singleton made data ih =>
    rw [List.flatten_append, List.append_eq_nil_iff] at h
    obtain ⟨x, hx, hframes, hoff⟩ := ih h.1
    have hdata : data = [] := by simpa using h.2
    subst hdata
    have hnil := TlsReader.tryParseOnAppendData_nil pool (extract_buffered hx).1 hoff
    exact ⟨⟨_, []⟩, extract_concat_ok_iff.mpr ⟨x, hx, none, hnil, by simp [hframes]⟩, rfl, rfl⟩

/-- The reader meets its contract on the stream without records and on no other. -/
theorem extractsOnce_iff (pool : ArrayPool) (s : RecordStream) :
    ExtractsOnce pool s ↔ s.records = [] := by
  constructor
  · rintro ⟨⟨x, hx, hret⟩, hrest⟩
    by_contra hne
    obtain ⟨r, rs, hr⟩ := List.exists_cons_of_ne_nil hne
    have hheld := hrest s.appends List.prefix_rfl x hx
    rw [(extract_buffered hx).2, hret, ← s.split] at hheld
    -- the array still holds the stream, of which nothing may be left
    have hempty : s.records.flatten = [] := by
      rw [← s.split, hheld]
      exact List.drop_length
    have hrec : r ∈ s.records := by simp [hr]
    have hnil : r = [] := List.flatten_eq_nil_iff.mp hempty r hrec
    have hlen := (s.wellFormed r hrec).five_le
    simp [hnil, sizeRecord] at hlen
  · intro hrec
    have hflat : s.appends.flatten = [] := by rw [s.split, hrec]; rfl
    refine ⟨?_, fun made hm x hx => ?_⟩
    · obtain ⟨x, hx, hframes, -⟩ := extract_empty pool hflat
      exact ⟨x, hx, by simp [Extraction.returned, hframes, hrec]⟩
    · obtain ⟨rest, hrest⟩ := hm
      have hmade : made.flatten = [] := by
        rw [← hrest, List.flatten_append, List.append_eq_nil_iff] at hflat
        exact hflat.1
      rw [(extract_buffered hx).2, hmade, List.drop_nil]

/-- A ChangeCipherSpec record followed by an empty application-data record. -/
def twoRecords : RecordStream where
  records := [[0x14, 3, 3, 0, 1, 1], [0x17, 3, 3, 0, 0]]
  appends := [[0x14, 3, 3, 0, 1, 1], [0x17, 3, 3, 0, 0]]
  wellFormed := by
    intro r hr
    simp only [List.mem_cons, List.not_mem_nil, or_false] at hr
    rcases hr with rfl | rfl
    · exact ⟨_, _, _, _, _, _, rfl, rfl⟩
    · exact ⟨_, _, _, _, _, _, rfl, rfl⟩
  split := rfl

/-- The second call returns the first record again. -/
theorem not_extractsOnce_twoRecords : ¬ ExtractsOnce .zeroed twoRecords := by
  rintro ⟨⟨x, hx, hret⟩, -⟩
  have hfirst : IsRecord [0x14, 3, 3, 0, 1, 1] := ⟨_, _, _, _, _, _, rfl, rfl⟩
  have hframes := extract_frames hfirst hx (.inr (by simp [twoRecords]))
  rw [hret] at hframes
  simp [twoRecords, callsFrom, List.range_succ] at hframes

end DecodingProxy.Cryptography
