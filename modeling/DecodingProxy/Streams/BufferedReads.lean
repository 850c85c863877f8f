import DecodingProxy.Lib.Runs
import DecodingProxy.Streams.StreamBufferedForReads

/-!
# What `StreamBufferedForReads` gives to its reader

The bytes the inner stream has produced are those returned, those queued and those in
a party's hands, in this order, as long as three things hold of every step: a read is
never served from a segment that an earlier read has copied from, chunks are enqueued
in the order they were read, and the buffered bytes fit `length`.
-/

namespace DecodingProxy.Streams
open DecodingProxy.Runtime DecodingProxy.Runs

namespace StreamBufferedForReads

def queued (s : StreamBufferedForReads) : List UInt8 := s.buffers.flatMap (·.bytes)

def held (s : StreamBufferedForReads) : List UInt8 := s.inHand.flatMap (·.segment.bytes)

def countedLength : List Chunk → ℕ
  | [] => 0
  | c :: chunks => (if c.counted then c.segment.length else 0) + countedLength chunks

/-- The buffered bytes the reader has not had: those counted, less what it took of the
first segment. -/
def unreturned (s : StreamBufferedForReads) : ℤ :=
  s.queued.length - s.taken + countedLength s.inHand

/-- The reader has a prefix of the stream, and between its calls `length` is exact. -/
structure Lossless (s : StreamBufferedForReads) : Prop where
  returned : s.returned <+: s.produced
  length : (match s.reader with | .idle => True | _ => False) → s.length = s.unreturned

/-- What an action has to find. -/
def Fits (s : StreamBufferedForReads) : BufferedAction → Prop
  | .peek => s.taken = 0
  | .enqueue party => ∀ c ∈ s.inHand.head?, c.party = party
  | .count party => ∀ c ∈ s.inHand, c.party = party → s.unreturned + c.segment.length < 2 ^ 31
  | _ => True

instance (s : StreamBufferedForReads) : (a : BufferedAction) → Decidable (s.Fits a)
  | .peek => inferInstanceAs (Decidable (s.taken = 0))
  | .enqueue party => inferInstanceAs (Decidable (∀ c ∈ s.inHand.head?, c.party = party))
  | .count party => inferInstanceAs
      (Decidable (∀ c ∈ s.inHand, c.party = party → s.unreturned + c.segment.length < 2 ^ 31))
  | .readAsync _ | .subtract | .finish | .checkFlag | .innerRead _ _ | .innerThrow _
  | .startFillingBuffer | .stopFillingBuffer | .cancel | .join => isTrue trivial

/-! ### The invariant -/

/-- The bytes a call has copied and not returned. -/
def due (s : StreamBufferedForReads) : List UInt8 :=
  match s.reader with
  | .subtracted _ read _ _ => read
  | _ => []

/-- `read` is the beginning of the first segment, all of it when no data is left. -/
def Copied (s : StreamBufferedForReads) (read : List UInt8) (drained : Bool)
    (bufferSegment : BufferSegment) : Prop :=
  0 < bufferSegment.copied ∧ ∃ head rest, s.buffers = head :: rest ∧
    bufferSegment.copied ≤ head.length ∧ read = head.bytes.take bufferSegment.copied ∧
    (drained = true → bufferSegment.copied = head.length)

def ReaderFits (s : StreamBufferedForReads) : Prop :=
  match s.reader with
  | .idle => True
  | .looping left => 0 < left
  | .missed left => 0 < left
  | .fetching left _ => 0 < left
  | .transferred _ read drained segment => s.taken = 0 ∧ s.Copied read drained segment
  | .subtracted _ read drained segment => s.taken = segment.copied ∧ s.Copied read drained segment

structure Consistent (s : StreamBufferedForReads) : Prop where
  bytes : s.produced = s.returned ++ s.due ++ s.queued.drop s.taken ++ s.held
  taken_le : s.taken ≤ s.queued.length
  count : s.length = s.unreturned
  small : s.unreturned < 2 ^ 31
  segments : ∀ segment ∈ s.buffers, 0 < segment.length
  chunks : ∀ c ∈ s.inHand, 0 < c.segment.length
  reader : s.ReaderFits

theorem Consistent.lossless {s : StreamBufferedForReads} (h : s.Consistent) : s.Lossless where
  returned := by
    rw [h.bytes, List.append_assoc, List.append_assoc]
    exact List.prefix_append _ _
  length _ := h.count

/-- Nobody holds two chunks, and the filler holds one only on its way to the queue. -/
structure Parties (s : StreamBufferedForReads) : Prop where
  single : (s.inHand.map (·.party)).Nodup
  filler : ∀ c ∈ s.inHand, c.party = .filler → s.filler = .storing
  owner : s.owner = .idle → s.flagReadToBufferIsRunning = 0 → s.filler = .off

/-! ### One step -/

variable {pool : ArrayPool} {s t : StreamBufferedForReads}

/-- The parts of the state that carry bytes and counts. -/
structure SameBytes (s t : StreamBufferedForReads) : Prop where
  buffers : t.buffers = s.buffers
  inHand : t.inHand = s.inHand
  length : t.length = s.length
  taken : t.taken = s.taken
  produced : t.produced = s.produced
  returned : t.returned ++ t.due = s.returned ++ s.due

theorem Consistent.of_same (h : s.Consistent) (hs : SameBytes s t) (hr : t.ReaderFits) :
    t.Consistent := by
  have hq : t.queued = s.queued := by rw [queued, hs.buffers, queued]
  have hh : t.held = s.held := by rw [held, hs.inHand, held]
  have hu : t.unreturned = s.unreturned := by
    rw [unreturned, hq, hs.taken, hs.inHand, unreturned]
  exact
    { bytes := by rw [hs.produced, hs.returned, hq, hs.taken, hh, h.bytes]
      taken_le := by rw [hs.taken, hq]; exact h.taken_le
      count := by rw [hs.length, hu, h.count]
      small := by rw [hu]; exact h.small
      segments := by rw [hs.buffers]; exact h.segments
      chunks := by rw [hs.inHand]; exact h.chunks
      reader := hr }

theorem Consistent.of_reader (h : s.Consistent) (hb : t.buffers = s.buffers)
    (hi : t.inHand = s.inHand) (hl : t.length = s.length) (ht : t.taken = s.taken)
    (hp : t.produced = s.produced) (hret : t.returned = s.returned) (hr : t.reader = s.reader) :
    t.Consistent := by
  have hd : t.due = s.due := by rw [due, hr, due]
  apply h.of_same ⟨hb, hi, hl, ht, hp, by rw [hret, hd]⟩
  have := h.reader
  simpa only [ReaderFits, Copied, hr, hb, ht] using this

theorem receive_inv {party : Party} {buffer chunk : List UInt8}
    (hs : s.receive party buffer chunk = .ok t) :
    ∃ segment : BufferSegment, segment.bytes = chunk ∧ segment.length = chunk.length ∧
      t = { s with inHand := s.inHand ++ [⟨party, segment, false⟩]
                   produced := s.produced ++ chunk } := by
  unfold receive at hs
  split_ifs at hs with hlen
  cases hs
  refine ⟨_, ?_, rfl, rfl⟩
  simp [BufferSegment.bytes, BufferSegment.memory, Arrays.writeAt]

theorem not_isFetched {party : Party} (h : ¬ s.isFetched party = true) :
    party ∉ s.inHand.map (·.party) := by
  simpa [isFetched] using h

theorem Parties.append (h : s.Parties) {party : Party} {segment : BufferSegment}
    (hnew : party ∉ s.inHand.map (·.party)) :
    ((s.inHand ++ [(⟨party, segment, false⟩ : Chunk)]).map (·.party)).Nodup := by
  rw [List.map_append, List.nodup_append]
  refine ⟨h.single, by simp, ?_⟩
  intro a ha b hb
  simp only [List.map_cons, List.map_nil, List.mem_singleton] at hb
  rintro rfl
  exact hnew (hb ▸ ha)

theorem Parties.not_holding (h : s.Parties) (hf : s.filler ≠ .storing) :
    Party.filler ∉ s.inHand.map (·.party) := by
  intro hm
  obtain ⟨c, hc, hp⟩ := List.mem_map.mp hm
  exact hf (h.filler c hc hp)

theorem Parties.of_same (h : s.Parties) (hi : t.inHand = s.inHand) (hf : t.filler = s.filler)
    (ho : t.owner = s.owner)
    (hr : t.flagReadToBufferIsRunning = s.flagReadToBufferIsRunning) : t.Parties :=
  ⟨hi ▸ h.single, hi ▸ hf ▸ h.filler, ho ▸ hr ▸ hf ▸ h.owner⟩

theorem Parties.of_filler (h : s.Parties) (hf : s.filler ≠ .storing) (hoff : s.filler ≠ .off)
    (hi : t.inHand = s.inHand) (ho : t.owner = s.owner)
    (hr : t.flagReadToBufferIsRunning = s.flagReadToBufferIsRunning) : t.Parties where
  single := hi ▸ h.single
  filler c hc hp := absurd (List.mem_map.mpr ⟨c, hi ▸ hc, hp⟩) (h.not_holding hf)
  owner hidle hflag := absurd (h.owner (ho ▸ hidle) (hr ▸ hflag)) hoff

theorem innerRead_parties {party : Party} {chunk : List UInt8} (h : s.Parties)
    (hs : s.step pool (.innerRead party chunk) = .ok t) : t.Parties := by
  cases party with
  | reader =>
    simp only [step] at hs
    split at hs
    · split_ifs at hs with hfetched hempty
      · cases hs
        exact h
      · obtain ⟨segment, -, -, rfl⟩ := receive_inv hs
        refine ⟨h.append (not_isFetched hfetched), fun c hc hp => ?_, h.owner⟩
        rcases List.mem_append.mp hc with hold | hnew
        · exact h.filler c hold hp
        · rw [List.mem_singleton.mp hnew] at hp
          cases hp
    · cases hs
  | filler =>
    simp only [step] at hs
    split at hs
    · rename_i buffer hf
      split_ifs at hs with hempty hcancel
      · cases hs
        exact h.of_filler (by simp [hf]) (by simp [hf]) rfl rfl rfl
      · cases hs
        exact h.of_filler (by simp [hf]) (by simp [hf]) rfl rfl rfl
      · obtain ⟨segment, -, -, rfl⟩ := receive_inv hs
        refine ⟨h.append (h.not_holding (by simp [hf])), fun _ _ _ => rfl, fun ho hflag => ?_⟩
        exact absurd (h.owner ho hflag) (by simp [hf])
    · cases hs

theorem count_parties {party : Party} (h : s.Parties) (hs : s.step pool (.count party) = .ok t) :
    t.Parties := by
  simp only [step] at hs
  split at hs
  · split_ifs at hs
    cases hs
    have hmap : ∀ c : Chunk,
        (if c.party = party then { c with counted := true } else c).party = c.party := by
      intro c
      split_ifs <;> rfl
    refine ⟨by simpa [Function.comp_def, hmap] using h.single, fun c hc hp => ?_, h.owner⟩
    obtain ⟨c', hc', rfl⟩ := List.mem_map.mp hc
    exact h.filler c' hc' (by rw [← hp, hmap])
  · cases hs

theorem enqueue_parties {party : Party} (h : s.Parties)
    (hs : s.step pool (.enqueue party) = .ok t) : t.Parties := by
  simp only [step] at hs
  split at hs
  · rename_i chunk hfind
    split_ifs at hs
    cases hs
    have hsub : (s.inHand.filter (·.party ≠ party)).Sublist s.inHand := List.filter_sublist
    refine ⟨h.single.sublist (hsub.map _), fun c hc hp => ?_, fun ho hflag => ?_⟩
    · cases party with
      | reader => exact h.filler c (hsub.mem hc) hp
      | filler =>
        have := (List.mem_filter.mp hc).2
        simp [hp] at this
    · cases party with
      | reader => exact h.owner ho hflag
      | filler =>
        have hstoring := h.filler chunk (List.mem_of_find?_eq_some hfind)
          (by simpa using List.find?_some hfind)
        rw [h.owner ho hflag] at hstoring
        cases hstoring
  · cases hs

theorem step_parties {a : BufferedAction} (h : s.Parties) (hs : s.step pool a = .ok t) :
    t.Parties := by
  cases a with
  | innerRead party chunk => exact innerRead_parties h hs
  | readAsync count =>
    simp only [step] at hs
    split at hs
    · split_ifs at hs <;> cases hs
      · exact h
      · exact h.of_same rfl rfl rfl rfl
    · cases hs
  | peek =>
    simp only [step] at hs
    split at hs <;> cases hs <;> exact h.of_same rfl rfl rfl rfl
  | subtract =>
    simp only [step] at hs
    split at hs <;> cases hs
    exact h.of_same rfl rfl rfl rfl
  | finish =>
    simp only [step] at hs
    split at hs <;> cases hs <;> exact h.of_same rfl rfl rfl rfl
  | checkFlag =>
    simp only [step] at hs
    split at hs
    · split_ifs at hs
      · split at hs <;> cases hs <;> exact h.of_same rfl rfl rfl rfl
      · cases hs
        exact h.of_same rfl rfl rfl rfl
    · cases hs
  | innerThrow party =>
    cases party with
    | reader =>
      simp only [step] at hs
      split at hs
      · split_ifs at hs
        cases hs
        exact h.of_same rfl rfl rfl rfl
      · cases hs
    | filler =>
      simp only [step] at hs
      split at hs
      · rename_i buffer hf
        cases hs
        exact h.of_filler (by simp [hf]) (by simp [hf]) rfl rfl rfl
      · cases hs
  | count party => exact count_parties h hs
  | enqueue party => exact enqueue_parties h hs
  | startFillingBuffer =>
    simp only [step] at hs
    split_ifs at hs with ho hflag
    cases hs
    have hoff := h.owner (by simpa using ho) (by simpa using hflag)
    refine ⟨h.single, fun c hc hp => ?_, fun _ hone => by simp at hone⟩
    have := h.filler c hc hp
    rw [hoff] at this
    cases this
  | stopFillingBuffer =>
    simp only [step] at hs
    split_ifs at hs
    cases hs
    exact ⟨h.single, h.filler, fun ho => by cases ho⟩
  | cancel =>
    simp only [step] at hs
    split at hs <;> cases hs
    exact ⟨h.single, h.filler, fun ho => by cases ho⟩
  | join =>
    simp only [step] at hs
    split at hs
    · rename_i hended
      cases hs
      refine ⟨h.single, fun c hc hp => ?_, fun _ _ => rfl⟩
      have := h.filler c hc hp
      rw [hended] at this
      cases this
    · cases hs

theorem readAsync_consistent {count : ℕ} (h : s.Consistent)
    (hs : s.step pool (.readAsync count) = .ok t) : t.Consistent := by
  simp only [step] at hs
  split at hs
  · rename_i hr
    split_ifs at hs with h0
    · cases hs
      exact h
    · cases hs
      exact h.of_same ⟨rfl, rfl, rfl, rfl, rfl, by simp [due, hr]⟩ (Nat.pos_of_ne_zero h0)
  · cases hs

theorem peek_consistent (h : s.Consistent) (h0 : s.taken = 0)
    (hs : s.step pool .peek = .ok t) : t.Consistent := by
  simp only [step] at hs
  split at hs
  · rename_i left hr hq
    cases hs
    have hleft : 0 < left := by simpa [ReaderFits, hr] using h.reader
    exact h.of_same ⟨rfl, rfl, rfl, rfl, rfl, by simp [due, hr]⟩ hleft
  · rename_i left head rest hr hq
    cases hs
    have hleft : 0 < left := by simpa [ReaderFits, hr] using h.reader
    refine h.of_same ⟨rfl, rfl, rfl, rfl, rfl, by simp [due, hr]⟩ ⟨h0, ?_⟩
    rcases Nat.lt_or_ge head.length left with hlt | hle
    · rw [BufferSegment.transferTo_of_lt hlt]
      exact ⟨h.segments head (by simp [hq]), head, rest, hq, Nat.le_refl _,
        (List.take_of_length_le (by simp)).symm, fun _ => rfl⟩
    · rw [BufferSegment.transferTo_of_le hle]
      exact ⟨hleft, head, rest, hq, hle, rfl, fun hf => by cases hf⟩
  · cases hs

theorem Copied.le_queued {read : List UInt8} {drained : Bool} {segment : BufferSegment}
    (h : s.Copied read drained segment) : segment.copied ≤ s.queued.length := by
  obtain ⟨-, head, rest, hq, hle, -, -⟩ := h
  simp only [queued, hq, List.flatMap_cons, List.length_append, BufferSegment.bytes_length]
  omega

theorem Copied.queued_eq {read : List UInt8} {drained : Bool} {segment : BufferSegment}
    (h : s.Copied read drained segment) : s.queued = read ++ s.queued.drop segment.copied := by
  obtain ⟨-, head, rest, hq, hle, rfl, -⟩ := h
  have hqueued : s.queued = head.bytes ++ rest.flatMap (·.bytes) := by simp [queued, hq]
  rw [hqueued, List.drop_append_of_le_length (by simpa using hle), ← List.append_assoc,
    List.take_append_drop]

theorem subtract_consistent (h : s.Consistent) (hs : s.step pool .subtract = .ok t) :
    t.Consistent := by
  simp only [step] at hs
  split at hs
  · rename_i left read drained segment hr
    cases hs
    have hfits := h.reader
    simp only [ReaderFits, hr] at hfits
    obtain ⟨h0, hcopied⟩ := hfits
    have hle := hcopied.le_queued
    have hc : s.length = s.queued.length + countedLength s.inHand := by
      simpa [unreturned, h0] using h.count
    have hsmall : (s.queued.length : ℤ) + countedLength s.inHand < 2 ^ 31 := by
      simpa [unreturned, h0] using h.small
    have hmax : max s.taken segment.copied = segment.copied := by omega
    exact
      { bytes := by
          have hd : s.due = [] := by simp [due, hr]
          have hb := h.bytes
          rw [hd, h0, List.append_nil, List.drop_zero, hcopied.queued_eq] at hb
          change s.produced =
            s.returned ++ read ++ s.queued.drop (max s.taken segment.copied) ++ s.held
          simp only [hb, hmax, List.append_assoc]
        taken_le := by
          change max s.taken segment.copied ≤ s.queued.length
          omega
        count := by
          change int32 (s.length - segment.copied) =
            s.queued.length - (max s.taken segment.copied : ℕ) + countedLength s.inHand
          rw [hmax, int32_of_range] <;> omega
        small := by
          change (s.queued.length : ℤ) - (max s.taken segment.copied : ℕ) +
            countedLength s.inHand < 2 ^ 31
          omega
        segments := h.segments
        chunks := h.chunks
        reader := ⟨hmax, hcopied⟩ }
  · cases hs

theorem finish_consistent (h : s.Consistent) (hs : s.step pool .finish = .ok t) :
    t.Consistent := by
  have hfits := h.reader
  simp only [step] at hs
  split at hs
  · rename_i left read segment hr
    cases hs
    exact h.of_same ⟨rfl, rfl, rfl, rfl, rfl, by simp [due, hr]⟩ trivial
  · cases hs
  · rename_i left read segment seg rest hr hq
    cases hs
    simp only [ReaderFits, hr] at hfits
    obtain ⟨ht, hpos, head, rest', hq', -, hread, hall⟩ := hfits
    obtain ⟨rfl, rfl⟩ := List.cons.inj (hq.symm.trans hq')
    have hcopied := hall rfl
    have hqueued : s.queued = seg.bytes ++ rest.flatMap (·.bytes) := by simp [queued, hq]
    have hun : s.unreturned = (rest.flatMap (·.bytes)).length + countedLength s.inHand := by
      simp only [unreturned, hqueued, ht, hcopied, List.length_append, BufferSegment.bytes_length]
      omega
    have hdrop : s.queued.drop s.taken = rest.flatMap (·.bytes) := by
      rw [hqueued, ht, hcopied, List.drop_left' (by simp)]
    have hd : s.due = read := by simp [due, hr]
    have hne : segment.copied ≠ 0 := Nat.ne_of_gt hpos
    simp only [if_neg hne]
    exact
      { bytes := by
          change s.produced =
            s.returned ++ read ++ [] ++ (rest.flatMap (·.bytes)).drop 0 ++ s.held
          rw [h.bytes, hd, hdrop, List.append_nil, List.drop_zero]
        taken_le := Nat.zero_le _
        count := by
          change s.length = (rest.flatMap (·.bytes)).length - (0 : ℕ) + countedLength s.inHand
          rw [h.count, hun]
          omega
        small := by
          change ((rest.flatMap (·.bytes)).length : ℤ) - (0 : ℕ) + countedLength s.inHand < 2 ^ 31
          have := h.small
          omega
        segments := fun g hg => h.segments g (by simp [hq, hg])
        chunks := h.chunks
        reader := trivial }
  · cases hs

theorem checkFlag_consistent (h : s.Consistent) (hs : s.step pool .checkFlag = .ok t) :
    t.Consistent := by
  simp only [step] at hs
  split at hs
  · rename_i left hr
    have hleft : 0 < left := by simpa [ReaderFits, hr] using h.reader
    split_ifs at hs with hflag
    · split at hs <;> cases hs
      · exact h.of_same ⟨rfl, rfl, rfl, rfl, rfl, by simp [due, hr]⟩ hleft
      · exact h.of_same ⟨rfl, rfl, rfl, rfl, rfl, by simp [due, hr]⟩ trivial
    · cases hs
      exact h.of_same ⟨rfl, rfl, rfl, rfl, rfl, by simp [due, hr]⟩ hleft
  · cases hs

@[simp] theorem countedLength_append (as bs : List Chunk) :
    countedLength (as ++ bs) = countedLength as + countedLength bs := by
  induction as with
  | nil => simp [countedLength]
  | cons a as ih => simp only [List.cons_append, countedLength, ih]; omega

theorem receive_consistent {party : Party} {buffer chunk : List UInt8} (h : s.Consistent)
    (hne : chunk ≠ []) (hs : s.receive party buffer chunk = .ok t) : t.Consistent := by
  obtain ⟨segment, hbytes, hlen, rfl⟩ := receive_inv hs
  have hcount : countedLength (s.inHand ++ [(⟨party, segment, false⟩ : Chunk)]) =
      countedLength s.inHand := by
    simp [countedLength]
  exact
    { bytes := by
        change s.produced ++ chunk = s.returned ++ s.due ++ s.queued.drop s.taken ++
          (s.inHand ++ [(⟨party, segment, false⟩ : Chunk)]).flatMap (·.segment.bytes)
        simp [h.bytes, held, hbytes]
      taken_le := h.taken_le
      count := by
        change s.length = s.queued.length - s.taken + countedLength (s.inHand ++ [_])
        rw [hcount]
        exact h.count
      small := by
        change (s.queued.length : ℤ) - s.taken + countedLength (s.inHand ++ [_]) < 2 ^ 31
        rw [hcount]
        exact h.small
      segments := h.segments
      chunks := by
        intro c hc
        rcases List.mem_append.mp hc with hold | hnew
        · exact h.chunks c hold
        · rw [List.mem_singleton.mp hnew]
          exact hlen ▸ List.length_pos_of_ne_nil hne
      reader := h.reader }

theorem innerRead_consistent {party : Party} {chunk : List UInt8} (h : s.Consistent)
    (hs : s.step pool (.innerRead party chunk) = .ok t) : t.Consistent := by
  cases party with
  | reader =>
    simp only [step] at hs
    split at hs
    · split_ifs at hs with hfetched hempty
      · cases hs
        exact h
      · exact receive_consistent h hempty hs
    · cases hs
  | filler =>
    simp only [step] at hs
    split at hs
    · split_ifs at hs with hempty hcancel
      · cases hs
        exact h.of_reader rfl rfl rfl rfl rfl rfl rfl
      · cases hs
        exact h.of_reader rfl rfl rfl rfl rfl rfl rfl
      · have hstoring : Consistent { s with filler := .storing } :=
          h.of_reader rfl rfl rfl rfl rfl rfl rfl
        exact receive_consistent hstoring hempty hs
    · cases hs

theorem countedLength_count {party : Party} {chunks : List Chunk} {chunk : Chunk}
    (hnodup : (chunks.map (·.party)).Nodup) (hfind : chunks.find? (·.party = party) = some chunk)
    (hc : chunk.counted = false) :
    countedLength (chunks.map fun c => if c.party = party then { c with counted := true } else c) =
      countedLength chunks + chunk.segment.length := by
  induction chunks with
  | nil => cases hfind
  | cons c chunks ih =>
    simp only [List.map_cons, List.nodup_cons] at hnodup
    by_cases hp : c.party = party
    · simp only [List.find?_cons, hp, decide_true, Option.some.injEq] at hfind
      subst hfind
      have hrest : (chunks.map fun d => if d.party = party then { d with counted := true } else d) =
          chunks := by
        conv_rhs => rw [← List.map_id chunks]
        apply List.map_congr_left
        intro d hd
        have hne : d.party ≠ party := fun he =>
          hnodup.1 (List.mem_map.mpr ⟨d, hd, he.trans hp.symm⟩)
        simp [hne]
      simp [countedLength, hp, hc, hrest]
      omega
    · simp only [List.find?_cons, hp, decide_false] at hfind
      simp only [List.map_cons, countedLength, if_neg hp, ih hnodup.2 hfind]
      omega

theorem count_consistent {party : Party} (h : s.Consistent) (hp : s.Parties)
    (hfits : s.Fits (.count party)) (hs : s.step pool (.count party) = .ok t) :
    t.Consistent := by
  simp only [step] at hs
  split at hs
  · rename_i chunk hfind
    split_ifs at hs with hc
    cases hs
    have hmem := List.mem_of_find?_eq_some hfind
    have hparty : chunk.party = party := by simpa using List.find?_some hfind
    have hsmall : s.unreturned + chunk.segment.length < 2 ^ 31 := hfits chunk hmem hparty
    have hcount := countedLength_count hp.single hfind (by simpa using hc)
    have hnonneg : 0 ≤ s.unreturned := by
      have := h.taken_le
      simp only [unreturned]
      omega
    exact
      { bytes := by
          have hheld : (s.inHand.map fun c =>
              if c.party = party then { c with counted := true } else c).flatMap
                (·.segment.bytes) = s.held := by
            rw [held, List.flatMap_map]
            congr 1
            funext c
            split_ifs <;> rfl
          rw [h.bytes]
          change _ = s.returned ++ s.due ++ s.queued.drop s.taken ++ List.flatMap _ (s.inHand.map _)
          rw [hheld]
        taken_le := h.taken_le
        count := by
          change int32 (s.length + chunk.segment.length) =
            s.queued.length - s.taken + countedLength (s.inHand.map _)
          rw [hcount, h.count, int32_of_range (by omega) (by omega), unreturned]
          omega
        small := by
          change (s.queued.length : ℤ) - s.taken + countedLength (s.inHand.map _) < 2 ^ 31
          rw [hcount]
          simp only [unreturned] at hsmall
          omega
        segments := h.segments
        chunks := by
          intro c hc'
          obtain ⟨d, hd, rfl⟩ := List.mem_map.mp hc'
          have := h.chunks d hd
          split_ifs <;> exact this
        reader := h.reader }
  · cases hs

theorem Copied.append {read : List UInt8} {drained : Bool} {segment : BufferSegment}
    (h : s.Copied read drained segment) {more : List BufferSegment}
    (hb : t.buffers = s.buffers ++ more) : t.Copied read drained segment := by
  obtain ⟨hpos, head, rest, hq, hfits⟩ := h
  exact ⟨hpos, head, rest ++ more, by rw [hb, hq, List.cons_append], hfits⟩

theorem Consistent.moveChunk (h : s.Consistent) {chunk : Chunk} {rest : List Chunk}
    (hin : s.inHand = chunk :: rest) (hc : chunk.counted = true) :
    Consistent { s with buffers := s.buffers ++ [chunk.segment], inHand := rest } := by
  have hqueued : (s.buffers ++ [chunk.segment]).flatMap (·.bytes) =
      s.queued ++ chunk.segment.bytes := by simp [queued]
  have htotal : ((s.queued ++ chunk.segment.bytes).length : ℤ) - s.taken + countedLength rest =
      s.unreturned := by
    simp only [unreturned, hin, countedLength, hc, List.length_append, BufferSegment.bytes_length,
      if_true]
    omega
  have htaken := h.taken_le
  exact
    { bytes := by
        change s.produced = s.returned ++ s.due ++
          ((s.buffers ++ [chunk.segment]).flatMap (·.bytes)).drop s.taken ++
            rest.flatMap (·.segment.bytes)
        rw [h.bytes, hqueued, List.drop_append_of_le_length htaken, held, hin]
        simp
      taken_le := by
        change s.taken ≤ ((s.buffers ++ [chunk.segment]).flatMap (·.bytes)).length
        rw [hqueued, List.length_append]
        omega
      count := by
        change s.length = (((s.buffers ++ [chunk.segment]).flatMap (·.bytes)).length : ℤ) -
          s.taken + countedLength rest
        rw [hqueued, htotal, h.count]
      small := by
        change (((s.buffers ++ [chunk.segment]).flatMap (·.bytes)).length : ℤ) - s.taken +
          countedLength rest < 2 ^ 31
        rw [hqueued, htotal]
        exact h.small
      segments := by
        intro g hg
        rcases List.mem_append.mp hg with hold | hnew
        · exact h.segments g hold
        · rw [List.mem_singleton.mp hnew]
          exact h.chunks chunk (by simp [hin])
      chunks := fun c hc => h.chunks c (by simp [hin, hc])
      reader := by
        have hr := h.reader
        cases hreader : s.reader <;> simp only [ReaderFits, hreader] at hr ⊢
        case looping | missed | fetching => exact hr
        case transferred | subtracted => exact ⟨hr.1, hr.2.append rfl⟩ }

theorem enqueue_consistent {party : Party} (h : s.Consistent) (hp : s.Parties)
    (hfits : s.Fits (.enqueue party)) (hs : s.step pool (.enqueue party) = .ok t) :
    t.Consistent := by
  simp only [step] at hs
  split at hs
  · rename_i chunk hfind
    split_ifs at hs with hc
    cases hs
    obtain ⟨head, rest, hin⟩ : ∃ head rest, s.inHand = head :: rest := by
      cases hi : s.inHand with
      | nil => rw [hi] at hfind; cases hfind
      | cons head rest => exact ⟨head, rest, rfl⟩
    have hhead : head.party = party := hfits head (by rw [hin]; rfl)
    have hsame : head = chunk := by simpa [hin, hhead] using hfind
    subst hsame
    have hrest : s.inHand.filter (·.party ≠ party) = rest := by
      have hsingle := hp.single
      rw [hin, List.map_cons, List.nodup_cons] at hsingle
      rw [hin, List.filter_cons_of_neg (by simp [hhead]), List.filter_eq_self]
      intro c hc'
      have hne : c.party ≠ party := fun he =>
        hsingle.1 (List.mem_map.mpr ⟨c, hc', he.trans hhead.symm⟩)
      simpa using hne
    have hmoved := h.moveChunk hin hc
    cases party with
    | filler => exact hmoved.of_reader rfl hrest rfl rfl rfl rfl rfl
    | reader =>
      cases hr : s.reader with
      | fetching left buffer =>
        have hleft : 0 < left := by simpa [ReaderFits, hr] using h.reader
        exact hmoved.of_same ⟨rfl, hrest, rfl, rfl, rfl, by simp [due, hr]⟩ hleft
      | _ => exact hmoved.of_reader rfl hrest rfl rfl rfl rfl hr.symm
  · cases hs

theorem step_consistent {a : BufferedAction} (h : s.Consistent) (hp : s.Parties)
    (hfits : s.Fits a) (hs : s.step pool a = .ok t) : t.Consistent := by
  cases a with
  | readAsync count => exact readAsync_consistent h hs
  | peek => exact peek_consistent h hfits hs
  | subtract => exact subtract_consistent h hs
  | finish => exact finish_consistent h hs
  | checkFlag => exact checkFlag_consistent h hs
  | innerRead party chunk => exact innerRead_consistent h hs
  | count party => exact count_consistent h hp hfits hs
  | enqueue party => exact enqueue_consistent h hp hfits hs
  | innerThrow party =>
    cases party with
    | reader =>
      simp only [step] at hs
      split at hs
      · rename_i left buffer hr
        split_ifs at hs
        cases hs
        exact h.of_same ⟨rfl, rfl, rfl, rfl, rfl, by simp [due, hr]⟩ trivial
      · cases hs
    | filler =>
      simp only [step] at hs
      split at hs <;> cases hs
      exact h.of_reader rfl rfl rfl rfl rfl rfl rfl
  | startFillingBuffer =>
    simp only [step] at hs
    split_ifs at hs
    cases hs
    exact h.of_reader rfl rfl rfl rfl rfl rfl rfl
  | stopFillingBuffer =>
    simp only [step] at hs
    split_ifs at hs
    cases hs
    exact h.of_reader rfl rfl rfl rfl rfl rfl rfl
  | cancel =>
    simp only [step] at hs
    split at hs <;> cases hs
    exact h.of_reader rfl rfl rfl rfl rfl rfl rfl
  | join =>
    simp only [step] at hs
    split at hs <;> cases hs
    exact h.of_reader rfl rfl rfl rfl rfl rfl rfl

/-! ### Runs -/

/-- After `Initilize`. -/
def initilize (segmentSize : ℤ) : StreamBufferedForReads := { segmentSize }

theorem initilize_consistent (segmentSize : ℤ) : (initilize segmentSize).Consistent where
  bytes := rfl
  taken_le := Nat.le_refl _
  count := rfl
  small := by
    change (0 : ℤ) < 2 ^ 31
    decide
  segments segment h := by cases h
  chunks c h := by cases h
  reader := trivial

theorem initilize_parties (segmentSize : ℤ) : (initilize segmentSize).Parties where
  single := List.nodup_nil
  filler c h := by cases h
  owner _ _ := rfl

/-- Every state the run reaches is lossless. -/
def NothingLost (pool : ArrayPool) (segmentSize : ℤ) (actions : List BufferedAction) : Prop :=
  ∀ t, Reached (step pool) (initilize segmentSize) actions t → t.Lossless

/-- In a run whose steps fit, the reader never loses or repeats a byte. -/
theorem nothingLost_of_fits (pool : ArrayPool) (segmentSize : ℤ) (actions : List BufferedAction)
    (hfits : Along (step pool) Fits (initilize segmentSize) actions) :
    NothingLost pool segmentSize actions := by
  intro t hreached
  have hinv : t.Consistent ∧ t.Parties :=
    Along.reached_invariant (I := fun t => t.Consistent ∧ t.Parties)
      (fun _ _ _ hi hc hs => ⟨step_consistent hi.1 hi.2 hc hs, step_parties hi.2 hs⟩)
      ⟨initilize_consistent segmentSize, initilize_parties segmentSize⟩ hfits hreached
  exact hinv.1.lossless

/-- A read served from a segment that was read before leaves `length` wrong, whatever the
bytes are. -/
theorem not_lossless_of_reread (h : s.Consistent) (htaken : s.taken ≠ 0) {left : ℕ}
    (hr : s.reader = .looping left) (hsize : ∀ g ∈ s.buffers, g.length ≤ arrayMaxLength) :
    ∃ t, run (step pool) s [.peek, .subtract, .finish] = .ok t ∧ ¬ t.Lossless := by
  have hleft : 0 < left := by simpa [ReaderFits, hr] using h.reader
  obtain ⟨head, rest, hq⟩ : ∃ head rest, s.buffers = head :: rest := by
    cases hb : s.buffers with
    | nil => exact absurd (Nat.le_zero.mp (by simpa [queued, hb] using h.taken_le)) htaken
    | cons head rest => exact ⟨head, rest, rfl⟩
  have hpos := h.segments head (by simp [hq])
  have hmax : head.length ≤ arrayMaxLength := hsize head (by simp [hq])
  have hq' : s.queued = head.bytes ++ rest.flatMap (·.bytes) := by simp [queued, hq]
  have hcount := h.count
  have hsmall := h.small
  have htk := h.taken_le
  simp only [unreturned, hq', List.length_append, BufferSegment.bytes_length] at hcount hsmall htk
  simp only [arrayMaxLength] at hmax
  rcases Nat.lt_or_ge head.length left with hlt | hle
  · refine ⟨_, by simp [run, Except.bind, step, hr, hq, BufferSegment.transferTo_of_lt hlt,
      Nat.ne_of_gt hpos]; rfl, fun hl => ?_⟩
    have := hl.length trivial
    simp only [unreturned, queued] at this
    rw [int32_of_range (by omega) (by omega)] at this
    omega
  · refine ⟨_, by simp [run, Except.bind, step, hr, hq, BufferSegment.transferTo_of_le hle]; rfl,
      fun hl => ?_⟩
    have := hl.length trivial
    simp only [unreturned, queued, List.flatMap_cons, List.length_append,
      BufferSegment.bytes_length] at this
    rw [int32_of_range (by omega) (by omega)] at this
    omega

/-- The reader fetches `chunk` itself. -/
def fetch (chunk : List UInt8) : List BufferedAction :=
  [.peek, .checkFlag, .innerRead .reader chunk, .count .reader, .enqueue .reader]

/-- A read that is served from the queue. -/
def serve : List BufferedAction := [.peek, .subtract, .finish]

theorem nothingLost_two_chunks : NothingLost .zeroed 16
    (.readAsync 8 :: fetch [1, 2, 3] ++ serve ++ .readAsync 2 :: fetch [4, 5, 6] ++ serve) :=
  nothingLost_of_fits .zeroed 16 _ (by decide)

/-- Two bytes of `[1, 2, 3]` are read twice: `Take` moved the offset of a copy. -/
theorem not_nothingLost_reread : ¬ NothingLost .zeroed 16
    (.readAsync 2 :: fetch [1, 2, 3] ++ serve ++ .readAsync 2 :: serve) := by
  intro h
  have hr : ∃ t, run (step .zeroed) (initilize 16)
      (.readAsync 2 :: fetch [1, 2, 3] ++ serve ++ .readAsync 2 :: serve) = .ok t ∧
      t.returned = [1, 2, 1, 2] ∧ t.produced = [1, 2, 3] := by
    refine ⟨_, rfl, ?_, ?_⟩
    · decide
    · decide
  obtain ⟨t, ht, hret, hprod⟩ := hr
  have := (h t ⟨_, List.prefix_rfl, ht⟩).returned
  rw [hret, hprod] at this
  exact absurd this (by decide)

end StreamBufferedForReads

end DecodingProxy.Streams
