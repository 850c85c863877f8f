import DecodingProxy.Http.ChunkedReading

/-!
# Reading a header block in pieces

However the bytes of a header block are offered, the object ends with the same lines
and goes on with the same body bytes as if the block had come in one piece: the first
read that completes the block is the point where the rest of the stream is handed to
the body.
-/

namespace DecodingProxy.Http
open DecodingProxy.Runtime DecodingProxy.Lines DecodingProxy.Runs

/-- The object with more lines stored. -/
def HttpObject.addLines (p : Platform) (o : HttpObject) (ls : List (List UInt8)) : HttpObject :=
  { o with fields := { o.fields with
      lines := o.fields.lines ++ ls.map (HttpFieldsV11.decodeLine p) } }

/-- Nothing was read of a message yet but lines of its header block. -/
structure AtHeader (o : HttpObject) : Prop where
  isReadingFields : o.isReadingFields = true
  isReadingBody : o.isReadingBody = false
  isReadingBodyChunked : o.isReadingBodyChunked = false
  isCompleted : o.isCompleted = false
  body : o.body = {}

theorem AtHeader.addLines {p : Platform} {o : HttpObject} (h : AtHeader o)
    (ls : List (List UInt8)) : AtHeader (o.addLines p ls) :=
  ⟨h.1, h.2, h.3, h.4, h.5⟩

theorem addLines_nil (p : Platform) (o : HttpObject) : o.addLines p [] = o := by
  simp [HttpObject.addLines]

theorem addLines_append (p : Platform) (o : HttpObject) (as bs : List (List UInt8)) :
    o.addLines p (as ++ bs) = (o.addLines p as).addLines p bs := by
  simp [HttpObject.addLines]

/-! ### The lines of one offer -/

theorem decodeLine_length (p : Platform) (line : List UInt8) :
    (HttpFieldsV11.decodeLine p line).length = (Utf8.getString line).length :=
  p.culture.lower_length _

theorem crlf_ascii : ∀ b ∈ CRLF, b < 0x80 := by decide

theorem decodeLine_crlf (p : Platform) : (HttpFieldsV11.decodeLine p CRLF).length = 2 := by
  rw [decodeLine_length, Utf8.getString_ascii crlf_ascii]
  rfl

/-- A line with content is never taken for the empty line. -/
theorem decodeLine_ne_two (p : Platform) {content : List UInt8} (h : content ≠ []) :
    (HttpFieldsV11.decodeLine p (content ++ CRLF)).length ≠ 2 := by
  have hpos := List.length_pos_iff.mpr (Utf8.getString_ne_nil h)
  rw [decodeLine_length, Utf8.getString_append_ascii crlf_ascii, List.length_append]
  simp only [CRLF, List.length_map, List.length_cons, List.length_nil]
  omega

theorem parseLines_cons (p : Platform) (o : HttpObject) (l : List UInt8) (ls : List (List UInt8)) :
    o.parseLines p (l :: ls) =
      if (HttpFieldsV11.decodeLine p l).length = 2 then
        ((o.addLines p [l]).endFields p).map fun e => (e, 2)
      else ((o.addLines p [l]).parseLines p ls).map fun r => (r.1, r.2 + l.length) := by
  have hstep : o.parseLines p (l :: ls) =
      if (HttpFieldsV11.decodeLine p l).length = 2 then
        (o.addLines p [l]).endFields p >>= fun e => .ok (e, 2)
      else (o.addLines p [l]).parseLines p ls >>= fun r => .ok (r.1, r.2 + l.length) := rfl
  rw [hstep]
  split_ifs with h
  · cases (o.addLines p [l]).endFields p <;> rfl
  · cases (o.addLines p [l]).parseLines p ls <;> rfl

section Lines
variable {p : Platform} {ls : List (List UInt8)}
  (content : ∀ l ∈ ls, (HttpFieldsV11.decodeLine p l).length ≠ 2)
include content

theorem parseLines_content (o : HttpObject) (more : List (List UInt8)) :
    o.parseLines p (ls ++ more) =
      ((o.addLines p ls).parseLines p more).map fun r => (r.1, ls.flatten.length + r.2) := by
  induction ls generalizing o with
  | nil =>
    rw [addLines_nil, List.nil_append]
    cases o.parseLines p more <;> simp [Except.map]
  | cons l ls ih =>
    have hl := content l List.mem_cons_self
    rw [List.cons_append, parseLines_cons, if_neg hl,
      ih (fun m hm => content m (List.mem_cons_of_mem _ hm)), ← addLines_append,
      List.singleton_append]
    cases (o.addLines p (l :: ls)).parseLines p more with
    | error fault => rfl
    | ok r =>
      simp only [Except.map, List.flatten_cons, List.length_append]
      congr 2
      omega

theorem parseLines_block (o : HttpObject) (more : List (List UInt8)) :
    o.parseLines p (ls ++ CRLF :: more) =
      ((o.addLines p (ls ++ [CRLF])).endFields p).map
        fun e => (e, (ls ++ [CRLF]).flatten.length) := by
  rw [parseLines_content content, parseLines_cons, if_pos (decodeLine_crlf p), ← addLines_append]
  cases (o.addLines p (ls ++ [CRLF])).endFields p with
  | error fault => rfl
  | ok e => simp [Except.map, CRLF]

end Lines

/-! ### The end of the block -/

/-- The length of the body as the fields tell it. -/
def HttpFieldsV11.bodyLength (p : Platform) (f : HttpFieldsV11) : Except Fault ℤ := do
  let fields ← f.parseLines p
  HttpFieldsV11.applyFields p
  fields.analyzBodyLength p

theorem endFields_ok_iff {p : Platform} {o e : HttpObject} :
    o.endFields p = .ok e ↔ ∃ fields length, o.fields.parseLines p = .ok fields ∧
      o.fields.bodyLength p = .ok length ∧
      HttpObject.beginBody p length { o with fields, isReadingFields := false } = .ok e := by
  unfold HttpObject.endFields HttpFieldsV11.bodyLength
  simp only [do_ok_iff]
  constructor
  · rintro ⟨fields, hf, u, hu, length, hl, he⟩
    exact ⟨fields, length, hf, ⟨fields, hf, u, hu, hl⟩, he⟩
  · rintro ⟨fields, length, hf, ⟨fields', hf', u, hu, hl⟩, he⟩
    obtain rfl := Except.ok.inj (hf.symm.trans hf')
    exact ⟨fields, hf, u, hu, length, hl, he⟩

theorem bodyLength_parse {p : Platform} {f : HttpFieldsV11} {length : ℤ}
    (h : f.bodyLength p = .ok length) : ∃ fields, f.parseLines p = .ok fields := by
  obtain ⟨fields, hf, -⟩ := do_ok_iff.mp h
  exact ⟨fields, hf⟩

/-! ### The body in one offer -/

/-- An object whose header block is read, before any byte of its body. -/
structure AtBody (e : HttpObject) : Prop where
  isReadingFields : e.isReadingFields = false
  isCompleted : e.isCompleted = false
  completed : e.body.completed = 0
  isRedingChunk : e.body.isRedingChunk = false
  isRedingEnclosure : e.body.isRedingEnclosure = false
  leftToRead : e.isReadingBody = true → 0 < e.body.leftToRead

theorem pushBody_nonneg {seq : List UInt8} {o o' : HttpObject} {n : ℤ}
    (h : o.pushBody seq = .ok (o', n)) : 0 ≤ n := by
  unfold HttpObject.pushBody at h
  split_ifs at h with hb hc
  · obtain ⟨r, -, h⟩ := do_ok_iff.mp h
    cases h
    exact Int.natCast_nonneg _
  · exact (HttpObject.fillBodyChunked_inv h).1
  · cases h
    exact le_rfl

theorem pushBody_nil {e : HttpObject} (h : AtBody e) : e.pushBody [] = .ok (e, 0) := by
  unfold HttpObject.pushBody
  split_ifs with hb hc
  · have hne : ¬ e.body.leftToRead = 0 := Int.ne_of_gt (h.leftToRead hb)
    have hfill : e.fillBody [] = .ok (e, 0) := by
      have hcompleted := h.isCompleted
      have hzero := h.completed
      obtain ⟨fields, ⟨buffer, datas, left, completed⟩, _⟩ := e
      simp_all [HttpObject.fillBody, HttpBody.write, bind, Except.bind]
    rw [hfill]
    rfl
  · unfold HttpObject.fillBodyChunked
    have henc := h.isRedingEnclosure
    rw [if_neg (by simp [h.isRedingChunk])]
    simp [Except.mapError, HttpObject.chunkLoop, HttpObject.enclose, henc, bind, Except.bind]
  · rfl

/-! ### The block in pieces -/

section Block
variable {p : Platform} {ls : List (List UInt8)}
  (content : ∀ l ∈ ls, (HttpFieldsV11.decodeLine p l).length ≠ 2)
include content

theorem push_part {o : HttpObject} (ho : AtHeader o) {buffer : List UInt8}
    (hlines : lines LF buffer = ls) :
    o.push p buffer = .ok (o.addLines p ls, ls.flatten.length) := by
  have hparse : o.parseLines p (lines LF buffer) = .ok (o.addLines p ls, ls.flatten.length) := by
    have := parseLines_content content o []
    rw [List.append_nil] at this
    rw [hlines, this]
    simp [HttpObject.parseLines, Except.map]
  have hbody : (o.addLines p ls).pushBody (buffer.drop ls.flatten.length) =
      .ok (o.addLines p ls, 0) := by
    unfold HttpObject.pushBody
    rw [if_neg (by simp [(ho.addLines ls).isReadingBody]),
      if_neg (by simp [(ho.addLines ls).isReadingBodyChunked])]
  unfold HttpObject.push
  rw [if_pos ho.isReadingFields, hparse]
  change ((o.addLines p ls).pushBody (buffer.drop ls.flatten.length) >>= fun r =>
    .ok (r.1, (ls.flatten.length : ℤ) + r.2)) = _
  rw [hbody]
  simp [bind, Except.bind]

variable (isLine : ∀ l ∈ ls, IsLine LF l)
include isLine

omit content in
theorem isLine_block : ∀ l ∈ ls ++ [CRLF], IsLine LF l := by
  intro l hl
  rcases List.mem_append.mp hl with h | h
  · exact isLine l h
  · exact List.mem_singleton.mp h ▸ isLine_crlf

theorem push_block {o : HttpObject} (ho : AtHeader o) (first : List UInt8) :
    o.push p ((ls ++ [CRLF]).flatten ++ first) =
      match (o.addLines p (ls ++ [CRLF])).endFields p with
      | .error fault => .error (.threw fault)
      | .ok e => (e.pushBody first).map fun r => (r.1, ((ls ++ [CRLF]).flatten.length : ℤ) + r.2) := by
  unfold HttpObject.push
  rw [if_pos ho.isReadingFields, lines_flatten (isLine_block isLine), List.append_assoc,
    List.singleton_append, parseLines_block content]
  cases (o.addLines p (ls ++ [CRLF])).endFields p with
  | error fault => rfl
  | ok e =>
    change (e.pushBody (((ls ++ [CRLF]).flatten ++ first).drop (ls ++ [CRLF]).flatten.length) >>=
      fun r => .ok (r.1, ((ls ++ [CRLF]).flatten.length : ℤ) + r.2)) = _
    rw [List.drop_left]
    dsimp only
    cases e.pushBody first <;> rfl

end Block

theorem push_eq_pushBody {p : Platform} {e : HttpObject} (h : e.isReadingFields = false)
    (buffer : List UInt8) : e.push p buffer = e.pushBody buffer := by
  unfold HttpObject.push
  rw [if_neg (by simp [h])]
  change (e.pushBody buffer >>= fun r => .ok (r.1, ((0 : ℕ) : ℤ) + r.2)) = _
  cases e.pushBody buffer with
  | error halt => rfl
  | ok r => simp [bind, Except.bind]

/-- What the reading loop does with the outcome of one call. -/
def settle (p : Platform) (buffer : List UInt8) (consumed : ℕ) (reads : List (List UInt8))
    (r : HttpObject × ℤ) : Except Halt Taken :=
  if r.2 < 0 ∨ buffer.length < r.2 then .error (.threw (.raised .argumentOutOfRange))
  else if r.1.isCompleted then
    .ok ⟨r.1, consumed + r.2.toNat, buffer.drop r.2.toNat ++ reads.flatten⟩
  else pushAll p r.1 (buffer.drop r.2.toNat) (consumed + r.2.toNat) reads

theorem pushAll_cons {p : Platform} {o : HttpObject} {pending read : List UInt8}
    (h : pending ++ read ≠ []) (consumed : ℕ) (reads : List (List UInt8)) :
    pushAll p o pending consumed (read :: reads) =
      (o.push p (pending ++ read)).bind (settle p (pending ++ read) consumed reads) := by
  conv_lhs => unfold pushAll
  rw [if_neg h]
  rfl

theorem pushAll_cons_nil {p : Platform} {o : HttpObject} (consumed : ℕ)
    (reads : List (List UInt8)) :
    pushAll p o [] consumed ([] :: reads) = pushAll p o [] consumed reads := by
  conv_lhs => unfold pushAll
  rw [if_pos (List.append_nil _)]

theorem settle_block {p : Platform} {e : HttpObject} (he : AtBody e) (first block : List UInt8)
    (consumed : ℕ) (reads : List (List UInt8)) :
    ((e.pushBody first).map fun r => (r.1, (block.length : ℤ) + r.2)).bind
        (settle p (block ++ first) consumed reads) =
      pushAll p e [] (consumed + block.length) (first :: reads) := by
  by_cases hfirst : first = []
  · subst hfirst
    rw [pushBody_nil he, pushAll_cons_nil]
    simp [Except.map, Except.bind, settle, he.isCompleted]
  · rw [pushAll_cons (by simpa using hfirst), push_eq_pushBody he.isReadingFields]
    cases hpush : e.pushBody first with
    | error halt => simp [Except.map, Except.bind, hpush]
    | ok r =>
      have hn := pushBody_nonneg hpush
      have hnat : ((block.length : ℤ) + r.2).toNat = block.length + r.2.toNat := by omega
      have hdrop : (block ++ first).drop (block.length + r.2.toNat) = first.drop r.2.toNat := by
        rw [List.drop_append, List.drop_of_length_le (by omega), List.nil_append]
        congr 1
        omega
      have hcheck : ((block.length : ℤ) + r.2 < 0 ∨ (block ++ first).length < block.length + r.2) ↔
          (r.2 < 0 ∨ first.length < r.2) := by
        rw [List.length_append]
        omega
      simp only [Except.map, Except.bind, settle, List.nil_append, hpush, hcheck, hnat, hdrop,
        Nat.add_assoc]

/-- Where the header block ends in the reads: `first` is what its last read holds of the
rest of the stream. -/
structure BlockCut (block pending : List UInt8) (reads : List (List UInt8)) (first : List UInt8)
    (post : List (List UInt8)) : Prop where
  split : ∃ pre read, reads = pre ++ read :: post ∧
    pending ++ (pre.flatten ++ read) = block ++ first ∧
    (pending ++ pre.flatten).length < block.length

theorem BlockCut.cons {block pending read first : List UInt8} {reads post : List (List UInt8)}
    {done part : List UInt8} (hpart : pending ++ read = done ++ part)
    (h : BlockCut block part reads first post) :
    BlockCut (done ++ block) pending (read :: reads) first post := by
  obtain ⟨pre, last, rfl, hsplit, hlt⟩ := h.split
  refine ⟨read :: pre, last, rfl, ?_, ?_⟩
  · rw [List.flatten_cons, List.append_assoc read, ← List.append_assoc pending, hpart,
      List.append_assoc done, hsplit, List.append_assoc]
  · rw [List.flatten_cons, ← List.append_assoc, hpart]
    simp only [List.length_append] at hlt ⊢
    omega

theorem beginBody_cases {p : Platform} {o e : HttpObject} {length : ℤ}
    (h : o.beginBody p length = .ok e) :
    (0 < length ∧ ∃ body, o.body.setBodyLength p.pool length = .ok body ∧
      e = { o with isReadingBody := true, body }) ∨
    (length = -2 ∧ e = { o with isReadingBodyChunked := true, body := o.body.beginChunked }) ∨
    (length ≤ 0 ∧ length ≠ -2 ∧ e = { o with isCompleted := true }) := by
  unfold HttpObject.beginBody at h
  split_ifs at h with hpos hchunked
  · obtain ⟨body, hbody, h⟩ := do_ok_iff.mp h
    cases h
    exact .inl ⟨hpos, body, hbody, rfl⟩
  · cases h
    exact .inr (.inl ⟨hchunked, rfl⟩)
  · cases h
    exact .inr (.inr ⟨by omega, hchunked, rfl⟩)

theorem setBodyLength_inv {pool : ArrayPool} {length : ℤ} {b b' : HttpBody}
    (h : b.setBodyLength pool length = .ok b') :
    ∃ buffer, pool.rent length = .ok buffer ∧ b' = { b with
      leftToRead := length, buffer, datas := buffer.take length.toNat } := by
  obtain ⟨buffer, hbuffer, h⟩ := do_ok_iff.mp h
  cases h
  exact ⟨buffer, hbuffer, rfl⟩

/-- After the block the object waits for its body, or is complete without one. -/
theorem endFields_atBody {p : Platform} {o e : HttpObject} (ho : AtHeader o)
    (h : o.endFields p = .ok e) :
    AtBody e ∨ e.isCompleted = true ∧ e.isReadingBody = false ∧ e.isReadingBodyChunked = false := by
  obtain ⟨fields, length, -, -, hbegin⟩ := endFields_ok_iff.mp h
  rcases beginBody_cases hbegin with ⟨hpos, body, hbody, rfl⟩ | ⟨-, rfl⟩ | ⟨-, -, rfl⟩
  · obtain ⟨buffer, -, rfl⟩ := setBodyLength_inv hbody
    left
    constructor <;> simp [ho.isCompleted, ho.body, hpos]
  · left
    constructor <;> simp [ho.isCompleted, ho.isReadingBody, ho.body, HttpBody.beginChunked]
  · exact .inr ⟨rfl, ho.isReadingBody, ho.isReadingBodyChunked⟩

theorem settle_part (p : Platform) {o : HttpObject} (ho : o.isCompleted = false)
    (done part : List UInt8) (consumed : ℕ) (reads : List (List UInt8)) :
    settle p (done ++ part) consumed reads (o, (done.length : ℤ)) =
      pushAll p o part (consumed + done.length) reads := by
  unfold settle
  rw [if_neg (by simp only [List.length_append]; omega), if_neg (by simp [ho]), Int.toNat_natCast,
    List.drop_left]

/-- The read that completes the block. -/
theorem push_block_settle {p : Platform} {ls : List (List UInt8)}
    (content : ∀ l ∈ ls, (HttpFieldsV11.decodeLine p l).length ≠ 2)
    (isLine : ∀ l ∈ ls, IsLine LF l) {o : HttpObject} (ho : AtHeader o) (first : List UInt8)
    (consumed : ℕ) (reads : List (List UInt8)) :
    (o.push p ((ls ++ [CRLF]).flatten ++ first)).bind
        (settle p ((ls ++ [CRLF]).flatten ++ first) consumed reads) =
      match (o.addLines p (ls ++ [CRLF])).endFields p with
      | .error fault => .error (.threw fault)
      | .ok e =>
        if e.isCompleted then
          .ok ⟨e, consumed + (ls ++ [CRLF]).flatten.length, first ++ reads.flatten⟩
        else pushAll p e [] (consumed + (ls ++ [CRLF]).flatten.length) (first :: reads) := by
  rw [push_block content isLine ho]
  cases hend : (o.addLines p (ls ++ [CRLF])).endFields p with
  | error fault => rfl
  | ok e =>
    simp only
    rcases endFields_atBody (ho.addLines _) hend with hbody | ⟨hc, hb, hk⟩
    · rw [settle_block hbody, if_neg (by simp [hbody.isCompleted])]
    · have hpush : e.pushBody first = .ok (e, 0) := by
        unfold HttpObject.pushBody
        rw [if_neg (by simp [hb]), if_neg (by simp [hk])]
      generalize (ls ++ [CRLF]).flatten = block
      rw [hpush, if_pos hc]
      simp only [Except.map, Except.bind, settle, Int.add_zero]
      rw [if_neg (by rw [List.length_append]; omega), if_pos hc, Int.toNat_natCast, List.drop_left]

/-- However a header block is cut into reads, the object goes on with the body as if the
block had come in one piece. -/
theorem pushAll_block {p : Platform} {ls : List (List UInt8)}
    (content : ∀ l ∈ ls, (HttpFieldsV11.decodeLine p l).length ≠ 2)
    (isLine : ∀ l ∈ ls, IsLine LF l)
    {o : HttpObject} (ho : AtHeader o) {pending tail : List UInt8} {reads : List (List UInt8)}
    (hshort : pending.length < (ls ++ [CRLF]).flatten.length)
    (hoffer : pending ++ reads.flatten = (ls ++ [CRLF]).flatten ++ tail) (consumed : ℕ) :
    ∃ first post, first ++ post.flatten = tail ∧
      BlockCut (ls ++ [CRLF]).flatten pending reads first post ∧
      pushAll p o pending consumed reads =
        match (o.addLines p (ls ++ [CRLF])).endFields p with
        | .error fault => .error (.threw fault)
        | .ok e =>
          if e.isCompleted then .ok ⟨e, consumed + (ls ++ [CRLF]).flatten.length, tail⟩
          else pushAll p e [] (consumed + (ls ++ [CRLF]).flatten.length) (first :: post) := by
  induction reads generalizing o ls pending consumed with
  | nil =>
    have := congrArg List.length hoffer
    simp only [List.flatten_nil, List.append_nil, List.length_append] at this hshort
    omega
  | cons read reads ih =>
    rw [List.flatten_cons, ← List.append_assoc] at hoffer
    by_cases hnil : pending ++ read = []
    · obtain ⟨rfl, rfl⟩ := List.append_eq_nil_iff.mp hnil
      obtain ⟨first, post, htail, hcut, hall⟩ := ih content isLine ho hshort hoffer consumed
      have hpart : ([] : List UInt8) ++ [] = [] ++ [] := rfl
      exact ⟨first, post, htail, .cons hpart hcut, by rw [pushAll_cons_nil, hall]⟩
    · rw [pushAll_cons hnil]
      rcases Nat.lt_or_ge (pending ++ read).length (ls ++ [CRLF]).flatten.length with hlt | hge
      · -- the read ends inside the block
        have hp : pending ++ read <+: (ls ++ [CRLF]).flatten :=
          List.prefix_of_prefix_length_le (hoffer ▸ List.prefix_append _ _)
            (List.prefix_append _ _) (Nat.le_of_lt hlt)
        obtain ⟨done, todo, part, hls, htodo, hpart, hlines, hshort'⟩ :=
          lines_of_prefix (isLine_block isLine) hp hlt
        obtain ⟨rest, rfl, rfl⟩ : ∃ rest, todo = rest ++ [CRLF] ∧ ls = done ++ rest := by
          obtain ⟨rest, last, rfl⟩ := List.eq_nil_or_concat todo |>.resolve_left htodo
          rw [List.concat_eq_append, ← List.append_assoc] at hls
          obtain ⟨rfl, hlast⟩ := List.append_inj' hls rfl
          exact ⟨rest, by rw [List.concat_eq_append, hlast], rfl⟩
        have hcontent : ∀ l ∈ done, _ := fun l hl => content l (List.mem_append_left _ hl)
        rw [push_part hcontent ho hlines]
        have hoffer' : part ++ reads.flatten = (rest ++ [CRLF]).flatten ++ tail := by
          rw [hpart, hls, List.flatten_append, List.append_assoc, List.append_assoc] at hoffer
          exact List.append_cancel_left hoffer
        obtain ⟨first, post, htail, hcut, hall⟩ :=
          ih (fun l hl => content l (List.mem_append_right _ hl))
            (fun l hl => isLine l (List.mem_append_right _ hl)) (ho.addLines done) hshort' hoffer'
            (consumed + done.flatten.length)
        refine ⟨first, post, htail, ?_, ?_⟩
        · rw [hls, List.flatten_append]
          exact hcut.cons hpart
        · have hsettle := settle_part p (ho.addLines (p := p) done).isCompleted done.flatten part
            consumed reads
          rw [← hpart] at hsettle
          have hlen : (done ++ rest ++ [CRLF]).flatten.length =
              done.flatten.length + (rest ++ [CRLF]).flatten.length := by
            rw [hls, List.flatten_append, List.length_append]
          rw [Except.bind, hsettle, hall, ← addLines_append, hlen, hls, Nat.add_assoc]
      · -- the read completes it
        obtain ⟨first, hfirst⟩ : ∃ first, pending ++ read = (ls ++ [CRLF]).flatten ++ first := by
          have hp : (ls ++ [CRLF]).flatten <+: pending ++ read :=
            List.prefix_of_prefix_length_le (List.prefix_append _ _)
              (hoffer ▸ List.prefix_append _ _) hge
          obtain ⟨first, h⟩ := hp
          exact ⟨first, h.symm⟩
        have htail : first ++ reads.flatten = tail := by
          rw [hfirst, List.append_assoc] at hoffer
          exact List.append_cancel_left hoffer
        refine ⟨first, reads, htail, ⟨[], read, rfl, by simpa using hfirst, by simpa using hshort⟩,
          ?_⟩
        rw [hfirst, push_block_settle content isLine ho, htail]

end DecodingProxy.Http
