import DecodingProxy.Http.HeaderReading

/-!
# Bodies of known length

`FillBody` copies all it is offered into the array of the body, so a read that goes past
the end of the message throws. What is left of the property is exact: the message is
framed when the length the code finds is the length of the body and, unless there is
no body, some read ends where the message ends.
-/

namespace DecodingProxy.Http
open DecodingProxy.Runtime DecodingProxy.Lines DecodingProxy.Runs DecodingProxy.Arrays

/-- The loop that reads one message into a new object. -/
def readMessage (p : Platform) (kind : HttpKind) (reads : List (List UInt8)) : Except Halt Taken :=
  pushAll p (HttpObject.new kind).beginMsg [] 0 reads

/-- No call fails, the object is complete after `block` and `body` and holds `body`, and the
next object gets every byte of `following`. -/
def Framed (p : Platform) (kind : HttpKind) (reads : List (List UInt8))
    (block body following : List UInt8) : Prop :=
  ∃ t, readMessage p kind reads = .ok t ∧ t.object.isCompleted = true ∧
    t.object.body.datas = body ∧ t.consumed = block.length + body.length ∧ t.left = following

/-- Some read ends where `bytes` end. -/
def EndsAtRead (bytes : List UInt8) (reads : List (List UInt8)) : Prop :=
  ∃ k, (reads.take k).flatten = bytes

/-- The length `AnalyzBodyLength` gives for the header block. -/
def headerLength (p : Platform) (kind : HttpKind) (h : HeaderBlock) : Except Fault ℤ :=
  ((HttpObject.new kind).beginMsg.addLines p h.lines).fields.bodyLength p

/-! ### Filling the array of the body -/

/-- `got` is in the array, `left` bytes are to come. -/
structure Filling (o : HttpObject) (got : List UInt8) (left : ℕ) : Prop where
  isReadingFields : o.isReadingFields = false
  isReadingBody : o.isReadingBody = true
  isCompleted : o.isCompleted = false
  pos : 0 < left
  leftToRead : o.body.leftToRead = left
  completed : o.body.completed = got.length
  room : o.body.datas.length = got.length + left
  datas : o.body.datas.take got.length = got

section Filling
variable {p : Platform} {o : HttpObject} {got : List UInt8} {left : ℕ} (h : Filling o got left)
  {seq : List UInt8}
include h

theorem push_over (hover : left < seq.length) :
    o.push p seq = .error (.threw (.raised .argumentOutOfRange)) := by
  rw [push_eq_pushBody h.isReadingFields, HttpObject.pushBody, if_pos h.isReadingBody,
    HttpObject.fillBody, HttpBody.write,
    if_pos (by rw [h.room, h.completed]; omega)]
  rfl

theorem push_fill (hfits : seq.length ≤ left) :
    ∃ o', o.push p seq = .ok (o', (seq.length : ℤ)) ∧
      o'.body.datas = writeAt o.body.datas got.length seq ∧
      o'.body.completed = got.length + seq.length ∧
      o'.body.leftToRead = left - seq.length ∧ o'.isReadingFields = false ∧
      o'.isCompleted = decide ((left : ℤ) - seq.length = 0) ∧
      o'.isReadingBody = !decide ((left : ℤ) - seq.length = 0) := by
  rw [push_eq_pushBody h.isReadingFields, HttpObject.pushBody, if_pos h.isReadingBody,
    HttpObject.fillBody, HttpBody.write,
    if_neg (by rw [h.room, h.completed]; omega)]
  refine ⟨_, rfl, ?_, ?_, ?_, h.isReadingFields, ?_, ?_⟩
  · simp only [h.completed]
  · simp only [h.completed]
  · simp only [h.leftToRead]
  · simp only [h.leftToRead]
  · simp only [h.leftToRead]

theorem take_filled (hfits : seq.length ≤ left) :
    (writeAt o.body.datas got.length seq).take (got ++ seq).length = got ++ seq := by
  rw [List.length_append, take_writeAt (by rw [h.room]; omega), h.datas]

theorem push_inside (hlt : seq.length < left) :
    ∃ o', o.push p seq = .ok (o', (seq.length : ℤ)) ∧
      Filling o' (got ++ seq) (left - seq.length) := by
  obtain ⟨o', hpush, hdatas, hcompleted, hleft, hfields, hdone, hreading⟩ :=
    push_fill h (p := p) (Nat.le_of_lt hlt)
  have hne : ¬ (left : ℤ) - seq.length = 0 := by omega
  refine ⟨o', hpush, hfields, by simp [hreading, hne], by simp [hdone, hne], by omega,
    by omega, by simp [hcompleted], ?_, ?_⟩
  · rw [hdatas, writeAt_length (by rw [h.room]; omega), h.room, List.length_append]
    omega
  · rw [hdatas, take_filled h (Nat.le_of_lt hlt)]

theorem push_last (heq : seq.length = left) :
    ∃ o', o.push p seq = .ok (o', (seq.length : ℤ)) ∧ o'.isCompleted = true ∧
      o'.body.datas = got ++ seq := by
  obtain ⟨o', hpush, hdatas, -, -, -, hdone, -⟩ := push_fill h (p := p) (Nat.le_of_eq heq)
  refine ⟨o', hpush, by rw [hdone, heq]; simp, ?_⟩
  have hlen : (writeAt o.body.datas got.length seq).length = (got ++ seq).length := by
    rw [writeAt_length (by rw [h.room]; omega), h.room, List.length_append, heq]
  rw [hdatas, ← List.take_of_length_le (Nat.le_of_eq hlen), take_filled h (Nat.le_of_eq heq)]

end Filling

theorem settle_inside {p : Platform} {o' : HttpObject} {got read : List UInt8} {left : ℕ}
    (h : Filling o' got left) (consumed : ℕ) (reads : List (List UInt8)) :
    settle p read consumed reads (o', (read.length : ℤ)) =
      pushAll p o' [] (consumed + read.length) reads := by
  unfold settle
  rw [if_neg (by simp only; omega), if_neg (by simp [h.isCompleted]), Int.toNat_natCast,
    List.drop_length]

theorem settle_last {p : Platform} {o' : HttpObject} {read : List UInt8}
    (h : o'.isCompleted = true) (consumed : ℕ) (reads : List (List UInt8)) :
    settle p read consumed reads (o', (read.length : ℤ)) =
      .ok ⟨o', consumed + read.length, reads.flatten⟩ := by
  unfold settle
  rw [if_neg (by simp only; omega), if_pos h, Int.toNat_natCast, List.drop_length,
    List.nil_append]

theorem pushAll_filling {p : Platform} {o : HttpObject} {got body : List UInt8} {left : ℕ}
    (h : Filling o got left) (hlen : body.length = left) {reads : List (List UInt8)} {k : ℕ}
    (hcut : (reads.take k).flatten = body) (consumed : ℕ) :
    ∃ t, pushAll p o [] consumed reads = .ok t ∧ t.object.isCompleted = true ∧
      t.object.body.datas = got ++ body ∧ t.consumed = consumed + left ∧
      t.left = (reads.drop k).flatten := by
  induction reads generalizing o got left body k consumed with
  | nil =>
    have hpos := h.pos
    rw [List.take_nil, List.flatten_nil] at hcut
    rw [← hlen, ← hcut] at hpos
    simp at hpos
  | cons read reads ih =>
    cases k with
    | zero =>
      have hpos := h.pos
      rw [← hlen, ← hcut] at hpos
      simp at hpos
    | succ k =>
      rw [List.take_succ_cons, List.flatten_cons] at hcut
      rw [List.drop_succ_cons]
      by_cases hnil : read = []
      · subst hnil
        rw [pushAll_cons_nil]
        exact ih h hlen hcut consumed
      · have hsum : read.length + (reads.take k).flatten.length = left := by
          rw [← List.length_append, hcut, hlen]
        rw [pushAll_cons (by simpa using hnil), List.nil_append]
        rcases Nat.lt_or_ge read.length left with hlt | hge
        · obtain ⟨o', hpush, hfill⟩ := push_inside h (p := p) hlt
          obtain ⟨t, ht, hdone, hdatas, hconsumed, hleft⟩ :=
            ih hfill (Nat.eq_sub_of_add_eq' hsum) rfl (consumed + read.length)
          refine ⟨t, ?_, hdone, ?_, by omega, hleft⟩
          · rw [hpush, Except.bind, settle_inside hfill, ht]
          · rw [hdatas, ← hcut, List.append_assoc]
        · have heq : read.length = left := by omega
          have hrest : (reads.take k).flatten = [] := List.length_eq_zero_iff.mp (by omega)
          obtain ⟨o', hpush, hdone, hdatas⟩ := push_last h (p := p) heq
          refine ⟨_, by rw [hpush, Except.bind, settle_last hdone], hdone, ?_, ?_, ?_⟩
          · rw [hdatas, ← hcut, hrest, List.append_nil]
          · rw [heq]
          · conv_lhs => rw [← List.take_append_drop k reads, List.flatten_append, hrest]
            rw [List.nil_append]

theorem filling_of_completed {p : Platform} {o : HttpObject} {got : List UInt8} {left : ℕ}
    (h : Filling o got left) {reads : List (List UInt8)} {consumed : ℕ} {t : Taken}
    (ht : pushAll p o [] consumed reads = .ok t) (hdone : t.object.isCompleted = true) :
    t.consumed = consumed + left ∧ ∃ k, (reads.take k).flatten.length = left := by
  induction reads generalizing o got left consumed with
  | nil =>
    cases ht
    rw [h.isCompleted] at hdone
    cases hdone
  | cons read reads ih =>
    by_cases hnil : read = []
    · subst hnil
      rw [pushAll_cons_nil] at ht
      obtain ⟨hconsumed, k, hk⟩ := ih h ht
      exact ⟨hconsumed, k + 1, by simpa using hk⟩
    · rw [pushAll_cons (by simpa using hnil), List.nil_append] at ht
      rcases Nat.lt_trichotomy read.length left with hlt | heq | hgt
      · obtain ⟨o', hpush, hfill⟩ := push_inside h (p := p) hlt
        rw [hpush, Except.bind, settle_inside hfill] at ht
        obtain ⟨hconsumed, k, hk⟩ := ih hfill ht
        refine ⟨by omega, k + 1, ?_⟩
        rw [List.take_succ_cons, List.flatten_cons, List.length_append]
        omega
      · obtain ⟨o', hpush, hdone', -⟩ := push_last h (p := p) heq
        rw [hpush, Except.bind, settle_last hdone'] at ht
        cases ht
        exact ⟨by rw [heq], 1, by simpa using heq⟩
      · rw [push_over h hgt] at ht
        cases ht

/-- A chunked body never gets to `datas`, and completing it takes two bytes. -/
theorem chunked_of_completed {p : Platform} {o : HttpObject} (hfields : o.isReadingFields = false)
    (hbody : o.isReadingBody = false) (hopen : o.isCompleted = false) {pending : List UInt8}
    {reads : List (List UInt8)} {consumed : ℕ} {t : Taken}
    (ht : pushAll p o pending consumed reads = .ok t) :
    t.object.body.datas = o.body.datas ∧
      (t.object.isCompleted = true → consumed + 2 ≤ t.consumed) := by
  induction reads generalizing o pending consumed with
  | nil =>
    cases ht
    exact ⟨rfl, fun h => by simp [hopen] at h⟩
  | cons read reads ih =>
    by_cases hnil : pending ++ read = []
    · obtain ⟨rfl, rfl⟩ := List.append_eq_nil_iff.mp hnil
      rw [pushAll_cons_nil] at ht
      exact ih hfields hbody hopen ht
    · rw [pushAll_cons hnil] at ht
      obtain ⟨⟨o', n⟩, hpush, hsettle⟩ := bind_ok_iff.mp ht
      have hstep : 0 ≤ n ∧ o'.body.datas = o.body.datas ∧ o'.isReadingFields = false ∧
          o'.isReadingBody = false ∧ (o'.isCompleted = false ∨ 2 ≤ n) := by
        rw [push_eq_pushBody hfields, HttpObject.pushBody, if_neg (by simp [hbody])] at hpush
        split_ifs at hpush with hchunked
        · obtain ⟨hn, hd, hf, hb, hc⟩ := HttpObject.fillBodyChunked_inv hpush
          exact ⟨hn, hd, hf.trans hfields, hb.trans hbody, hc.imp (fun h => h.1.trans hopen) id⟩
        · cases hpush
          exact ⟨le_rfl, rfl, hfields, hbody, .inl hopen⟩
      obtain ⟨hn, hdatas, hfields', hbody', hdone⟩ := hstep
      unfold settle at hsettle
      dsimp only at hsettle
      split_ifs at hsettle with hcheck hc
      · cases hsettle
        refine ⟨hdatas, fun _ => ?_⟩
        have htwo : 2 ≤ n := hdone.resolve_left (by simp [hc])
        change consumed + 2 ≤ consumed + n.toNat
        omega
      · obtain ⟨hd, hmore⟩ := ih hfields' hbody' (by simpa using hc) hsettle
        refine ⟨hd.trans hdatas, fun h => ?_⟩
        have := hmore h
        omega

/-! ### The end of the header block -/

theorem endsAtRead_block {block first body : List UInt8} {reads post : List (List UInt8)}
    (hcut : BlockCut block [] reads first post) (hbody : body ≠ []) :
    EndsAtRead (block ++ body) reads ↔ EndsAtRead body (first :: post) := by
  obtain ⟨pre, read, rfl, hsplit, hlt⟩ := hcut.split
  rw [List.nil_append] at hsplit hlt
  have hwhole : ∀ j, ((pre ++ read :: post).take (pre.length + 1 + j)).flatten =
      block ++ ((first :: post).take (1 + j)).flatten := by
    intro j
    have htake : (pre ++ read :: post).take (pre.length + 1 + j) = pre ++ read :: post.take j := by
      rw [Nat.add_assoc, List.take_length_add_append, Nat.add_comm 1 j, List.take_succ_cons]
    rw [htake, Nat.add_comm 1 j, List.take_succ_cons, List.flatten_append, List.flatten_cons,
      List.flatten_cons, ← List.append_assoc, hsplit, List.append_assoc]
  constructor
  · rintro ⟨k, hk⟩
    rcases Nat.lt_or_ge pre.length k with hlong | hshort
    · obtain ⟨j, rfl⟩ : ∃ j, k = pre.length + 1 + j := ⟨k - pre.length - 1, by omega⟩
      rw [hwhole] at hk
      exact ⟨1 + j, List.append_cancel_left hk⟩
    · rw [List.take_append_of_le_length hshort] at hk
      have hle : (pre.take k).flatten.length ≤ pre.flatten.length := by
        conv_rhs => rw [← List.take_append_drop k pre, List.flatten_append, List.length_append]
        omega
      rw [hk, List.length_append] at hle
      omega
  · rintro ⟨j, hj⟩
    cases j with
    | zero => exact absurd hj.symm (by simpa using hbody)
    | succ j => exact ⟨pre.length + 1 + j, by rw [hwhole, Nat.add_comm 1 j, hj]⟩

theorem endsAtRead_of_length {body following : List UInt8} {reads : List (List UInt8)} {k : ℕ}
    (hsplit : reads.flatten = body ++ following)
    (hlen : (reads.take k).flatten.length = body.length) : EndsAtRead body reads := by
  have hp : (reads.take k).flatten <+: body ++ following := by
    rw [← hsplit]
    conv_rhs => rw [← List.take_append_drop k reads, List.flatten_append]
    exact List.prefix_append _ _
  refine ⟨k, ?_⟩
  exact (List.prefix_of_prefix_length_le hp (List.prefix_append _ _)
    (Nat.le_of_eq hlen)).eq_of_length hlen

theorem atHeader_new (kind : HttpKind) : AtHeader (HttpObject.new kind).beginMsg := by
  constructor <;> cases kind <;> rfl

theorem HeaderBlock.decodeLine_ne_two (p : Platform) (h : HeaderBlock) {l : List UInt8}
    (hl : l ∈ h.fieldLines) : (HttpFieldsV11.decodeLine p l).length ≠ 2 := by
  obtain ⟨content, hc, rfl⟩ := List.mem_map.mp hl
  exact Http.decodeLine_ne_two p (h.content content hc).1

theorem pushAll_message (p : Platform) {o : HttpObject} (ho : AtHeader o) (h : HeaderBlock)
    {tail : List UInt8} {reads : List (List UInt8)} (split : reads.flatten = h.bytes ++ tail) :
    ∃ first post, first ++ post.flatten = tail ∧ BlockCut h.bytes [] reads first post ∧
      pushAll p o [] 0 reads =
        match (o.addLines p h.lines).endFields p with
        | .error fault => .error (.threw fault)
        | .ok e =>
          if e.isCompleted then .ok ⟨e, h.bytes.length, tail⟩
          else pushAll p e [] h.bytes.length (first :: post) := by
  have hshort : ([] : List UInt8).length < (h.fieldLines ++ [CRLF]).flatten.length :=
    List.length_pos_iff.mpr h.bytes_ne_nil
  obtain ⟨first, post, htail, hcut, hall⟩ := pushAll_block
    (fun _ hl => h.decodeLine_ne_two p hl) (fun _ hl => h.isLine_fieldLines hl)
    ho hshort (by simpa [HeaderBlock.bytes, HeaderBlock.lines] using split) 0
  refine ⟨first, post, htail, hcut, ?_⟩
  rw [Nat.zero_add] at hall
  exact hall

/-- The length found in the header block delimits the body in these reads. -/
def Delimits (length : ℤ) (block body : List UInt8) (reads : List (List UInt8)) : Prop :=
  (body = [] ∧ length ≤ 0 ∧ length ≠ -2) ∨
    (body ≠ [] ∧ length = body.length ∧ body.length ≤ arrayMaxLength ∧
      EndsAtRead (block ++ body) reads)

theorem beginBody_of_delimits {p : Platform} {o : HttpObject} {length : ℤ}
    {block body : List UInt8} {reads : List (List UInt8)}
    (h : Delimits length block body reads) : ∃ e, o.beginBody p length = .ok e := by
  unfold HttpObject.beginBody
  rcases h with ⟨-, hle, hne⟩ | ⟨hbody, rfl, hmax, -⟩
  · rw [if_neg (by omega), if_neg hne]
    exact ⟨_, rfl⟩
  · have hpos := List.length_pos_iff.mpr hbody
    obtain ⟨b, hb⟩ : ∃ b, o.body.setBodyLength p.pool body.length = .ok b := by
      unfold HttpBody.setBodyLength
      rw [ArrayPool.rent_ok p.pool hmax]
      exact ⟨_, rfl⟩
    rw [if_pos (by omega), hb]
    exact ⟨_, rfl⟩

theorem filling_of_rented {o : HttpObject} (ho : AtHeader o) {length : ℤ} (hpos : 0 < length)
    {buffer : List UInt8} (hroom : length ≤ buffer.length) (fields : HttpFieldsV11) :
    Filling { o with
      fields, isReadingFields := false, isReadingBody := true
      body := { o.body with
        leftToRead := length, buffer, datas := buffer.take length.toNat } } [] length.toNat where
  isReadingFields := rfl
  isReadingBody := rfl
  isCompleted := ho.isCompleted
  pos := by omega
  leftToRead := (Int.toNat_of_nonneg (Int.le_of_lt hpos)).symm
  completed := by simp [ho.body]
  room := by
    simp only [List.length_take, List.length_nil]
    omega
  datas := by simp

theorem framed_of_begun {p : Platform} {o e : HttpObject} (ho : AtHeader o)
    {fields : HttpFieldsV11} {length : ℤ}
    (hbegin : HttpObject.beginBody p length { o with fields, isReadingFields := false } = .ok e)
    {block body following first : List UInt8} {reads post : List (List UInt8)}
    (htail : first ++ post.flatten = body ++ following)
    (hcut : BlockCut block [] reads first post) :
    (∃ t, (if e.isCompleted then .ok ⟨e, block.length, body ++ following⟩
        else pushAll p e [] block.length (first :: post)) = (.ok t : Except Halt Taken) ∧
      t.object.isCompleted = true ∧ t.object.body.datas = body ∧
      t.consumed = block.length + body.length ∧ t.left = following) ↔
    Delimits length block body reads := by
  rcases beginBody_cases hbegin with ⟨hpos, b, hb, rfl⟩ | ⟨rfl, rfl⟩ | ⟨hle, hne, rfl⟩
  · -- an array of `length` bytes was rented
    obtain ⟨buffer, hrent, rfl⟩ := setBodyLength_inv hb
    obtain ⟨-, hroom, hmax, -⟩ := ArrayPool.rent_inv hrent
    have hfill := filling_of_rented ho hpos hroom fields
    rw [if_neg (by simp [ho.isCompleted])]
    constructor
    · rintro ⟨t, ht, hdone, -, hconsumed, -⟩
      obtain ⟨hc, k, hk⟩ := filling_of_completed hfill ht hdone
      have hlen : length.toNat = body.length := by omega
      have hbody : body ≠ [] := List.length_pos_iff.mp (by omega)
      refine .inr ⟨hbody, by omega, by omega, (endsAtRead_block hcut hbody).mpr ?_⟩
      exact endsAtRead_of_length htail (hk.trans hlen)
    · rintro (⟨-, hle, -⟩ | ⟨hbody, hlen, -, hends⟩)
      · omega
      · obtain ⟨k, hk⟩ := (endsAtRead_block hcut hbody).mp hends
        have hleft : (List.drop k (first :: post)).flatten = following := by
          have hall : (first :: post).flatten = body ++ following := htail
          rw [← List.take_append_drop k (first :: post), List.flatten_append, hk] at hall
          exact List.append_cancel_left hall
        obtain ⟨t, ht, hdone, hdatas, hconsumed, hrest⟩ :=
          pushAll_filling hfill (by omega) hk block.length
        exact ⟨t, ht, hdone, by simpa using hdatas, by omega, hrest.trans hleft⟩
  · -- the body is taken for a chunked one
    rw [if_neg (by simp [ho.isCompleted])]
    constructor
    · rintro ⟨t, ht, hdone, hdatas, hconsumed, -⟩
      obtain ⟨hd, hmore⟩ := chunked_of_completed (by rfl) (by exact ho.isReadingBody)
        (by exact ho.isCompleted) ht
      have hnil : body = [] := by
        rw [← hdatas, hd]
        simp [ho.body, HttpBody.beginChunked]
      have := hmore hdone
      rw [hnil] at hconsumed
      simp only [List.length_nil] at hconsumed
      omega
    · rintro (⟨-, -, hne⟩ | ⟨-, hlen, -⟩)
      · exact absurd rfl hne
      · omega
  · -- no body is expected
    rw [if_pos rfl]
    constructor
    · rintro ⟨t, ht, -, -, hconsumed, -⟩
      cases ht
      have hnil : body.length = 0 := Nat.add_left_cancel hconsumed.symm
      exact .inl ⟨List.length_eq_zero_iff.mp hnil, hle, hne⟩
    · rintro (⟨rfl, -⟩ | ⟨hbody, hlen, -⟩)
      · exact ⟨_, rfl, rfl, by simp [ho.body], rfl, rfl⟩
      · have := List.length_pos_iff.mpr hbody
        omega

theorem framed_iff (p : Platform) (kind : HttpKind) (h : HeaderBlock)
    {body following : List UInt8} {reads : List (List UInt8)}
    (split : reads.flatten = h.bytes ++ (body ++ following)) :
    Framed p kind reads h.bytes body following ↔
      ∃ length, headerLength p kind h = .ok length ∧ Delimits length h.bytes body reads := by
  obtain ⟨first, post, htail, hcut, hread⟩ := pushAll_message p (atHeader_new kind) h split
  have ho := (atHeader_new kind).addLines (p := p) h.lines
  unfold Framed headerLength readMessage
  rw [hread]
  generalize (HttpObject.new kind).beginMsg.addLines p h.lines = o at ho ⊢
  cases hend : o.endFields p with
  | error fault =>
    constructor
    · rintro ⟨t, ht, -⟩
      cases ht
    · rintro ⟨length, hlength, hdelimits⟩
      obtain ⟨fields, hfields⟩ := bodyLength_parse hlength
      obtain ⟨e, he⟩ := beginBody_of_delimits hdelimits
      have := endFields_ok_iff.mpr ⟨fields, length, hfields, hlength, he⟩
      rw [hend] at this
      cases this
  | ok e =>
    obtain ⟨fields, length, -, hlength, hbegin⟩ := endFields_ok_iff.mp hend
    refine (framed_of_begun ho hbegin htail hcut).trans ⟨fun hd => ⟨length, hlength, hd⟩, ?_⟩
    rintro ⟨length', hlength', hd⟩
    obtain rfl := Except.ok.inj (hlength.symm.trans hlength')
    exact hd

/-! ### Messages with a `Content-Length` -/

/-- The calls of `Push` do not throw, consume the message, and leave what follows it. -/
def RespectsContentLength (p : Platform) (kind : HttpKind) (m : ContentLengthMessage)
    (d : Delivery m.bytes) : Prop :=
  Framed p kind d.reads m.header.bytes m.body d.following

theorem respectsContentLength_iff (p : Platform) (kind : HttpKind) (m : ContentLengthMessage)
    (d : Delivery m.bytes) :
    RespectsContentLength p kind m d ↔
      ∃ length, headerLength p kind m.header = .ok length ∧
        Delimits length m.header.bytes m.body d.reads :=
  framed_iff p kind m.header (d.split.trans (List.append_assoc _ _ _))

/-- A read that goes past the end of a body is written past the end of its array. -/
theorem not_framed_of_one_read (p : Platform) (kind : HttpKind) (h : HeaderBlock)
    {body following : List UInt8} (hbody : body ≠ []) (hfollowing : following ≠ []) :
    ¬ Framed p kind [h.bytes ++ body ++ following] h.bytes body following := by
  rw [framed_iff p kind h (by simp)]
  rintro ⟨length, -, ⟨hnil, -⟩ | ⟨-, -, -, k, hk⟩⟩
  · exact hbody hnil
  · cases k with
    | zero => exact h.bytes_ne_nil (List.append_eq_nil_iff.mp hk.symm).1
    | succ k => exact hfollowing (by simpa using hk)

/-- A message whose body is one byte. -/
def oneByteMessage : ContentLengthMessage where
  header := ⟨asciiBytes "POST / HTTP/1.1", [asciiBytes "Content-Length: 1"], by decide⟩
  body := [0x78]
  declared := by
    refine ⟨_, List.mem_singleton_self _, asciiBytes "1", by decide, by decide,
      asciiBytes "Content-Length", asciiBytes " ", [], by decide, by decide,
      by decide, by decide⟩

theorem not_respectsContentLength_pipelined :
    ¬ RespectsContentLength {} .request oneByteMessage
      (.atOnce oneByteMessage.bytes (asciiBytes "GET")) :=
  not_framed_of_one_read {} .request oneByteMessage.header (by decide) (by decide)

end DecodingProxy.Http
