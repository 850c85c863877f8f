import DecodingProxy.Http.ContentLengthFraming
import DecodingProxy.Lib.Alike

/-!
# Objects that are used again

`Dispose` resets everything that reading a message reads before it writes it, with one
exception: `IsConnectRequired`. A message read into an object that was used before is read
as into a new one, but for this flag. And `Dispose` does not get that far when the body
is an array the pool does not take back.
-/

namespace DecodingProxy.Http
open DecodingProxy.Runtime DecodingProxy.Lines DecodingProxy.Runs DecodingProxy.Arrays

/-! ### What is seen of an object -/

namespace HttpFieldsV11

/-- A text as its readers see it: null is the empty text. -/
def text (s : Option Str) : Option Str := some (s.getD [])

/-- The fields as their readers see them. Only a response has a status code. -/
def shown (f : HttpFieldsV11) : HttpFieldsV11 :=
  { f with
    version := text f.version
    statusCode := if f.isResponse then f.statusCode else 0
    statusText := text f.statusText
    method := text f.method
    relativeReference := text f.relativeReference
    proxyConnection := text f.proxyConnection
    connection := text f.connection
    host := text f.host
    hostAddress := text f.hostAddress
    hostValue := text f.hostValue
    initLine := text f.initLine
    proxyConnectionControl := text f.proxyConnectionControl
    connectionControl := text f.connectionControl
    keepAlive := text f.keepAlive
    contentType := text f.contentType
    transferEncoding := text f.transferEncoding }

/-- The fields with the flag raised that an earlier message left. -/
def withConnect (leak : Bool) (f : HttpFieldsV11) : HttpFieldsV11 :=
  { f with isConnectRequired := f.isConnectRequired || leak }

end HttpFieldsV11

/-- The bytes of the body received so far, and what is known of its length. -/
def HttpBody.shown (b : HttpBody) : HttpBody :=
  { b with buffer := [], datas := b.datas.take b.completed }

def HttpObject.shown (o : HttpObject) : HttpObject :=
  { o with fields := o.fields.shown, body := o.body.shown }

def HttpObject.withConnect (leak : Bool) (o : HttpObject) : HttpObject :=
  { o with fields := o.fields.withConnect leak }

/-- Everything that reading a message shows. -/
def Taken.shown (t : Taken) : Taken := { t with object := t.object.shown }

def Taken.withConnect (leak : Bool) (t : Taken) : Taken :=
  { t with object := t.object.withConnect leak }

/-! ### Two parses -/

/-- The second shows what the first does, with the flag raised. -/
def Agree (leak : Bool) (f g : HttpFieldsV11) : Prop := g.shown = f.shown.withConnect leak

section Agree
variable {leak : Bool} {f g : HttpFieldsV11} (h : Agree leak f g)
include h

theorem Agree.lines : g.lines = f.lines := by
  have hsame := congrArg HttpFieldsV11.lines h
  exact hsame

theorem Agree.isResponse : g.isResponse = f.isResponse := by
  have hsame := congrArg HttpFieldsV11.isResponse h
  exact hsame

theorem Agree.isRequest : g.isRequest = f.isRequest := by
  have hsame := congrArg HttpFieldsV11.isRequest h
  exact hsame

theorem Agree.set (set : HttpFieldsV11 → HttpFieldsV11)
    (hshown : ∀ f, (set f).shown = set f.shown)
    (hleak : ∀ f, set (f.withConnect leak) = (set f).withConnect leak) :
    Agree leak (set f) (set g) := by
  unfold Agree at h ⊢
  rw [hshown, h, hleak, hshown]

theorem parseHost_alike (field : Str) :
    Alike (Agree leak) (f.parseHost field) (g.parseHost field) := by
  unfold HttpFieldsV11.parseHost
  refine .bind_same fun hostValue => ?_
  dsimp only
  split
  · refine .bind_same fun hostPort => .ok ?_
    exact h.set (fun f => { f with
      host := some field, hostValue := some hostValue, hostAddress := some _, hostPort })
      (fun _ => rfl) (fun _ => rfl)
  · refine .ok ?_
    exact h.set (fun f => { f with
      host := some field, hostValue := some hostValue, hostAddress := some hostValue, hostPort := 80 })
      (fun _ => rfl) (fun _ => rfl)

theorem parseTransferEncoding_alike (p : Platform) (field : Str) :
    Alike (Agree leak) (f.parseTransferEncoding p field) (g.parseTransferEncoding p field) := by
  unfold HttpFieldsV11.parseTransferEncoding
  refine .bind_same fun value => .ok ?_
  exact h.set (fun f => { f with
    transferEncoding := some (p.culture.toLowerInvariant field)
    transferEncodingValues := (Str.split 0x20 value).map p.culture.toLowerInvariant
    isGzip := decide (ascii "gzip" ∈ (Str.split 0x20 value).map p.culture.toLowerInvariant)
    isChunked := decide
      (ConstantsForHttp.VALUE_CHUNKED ∈ (Str.split 0x20 value).map p.culture.toLowerInvariant) })
    (fun _ => rfl) (fun _ => rfl)

theorem parseField_alike (p : Platform) (field : Str) :
    Alike (Agree leak) (f.parseField p field) (g.parseField p field) := by
  unfold HttpFieldsV11.parseField
  refine .bind_same fun name => .bind_same fun value => ?_
  have hmap := h.set
    (fun f => { f with valuePerFieldName := AList.insert name value f.valuePerFieldName })
    (fun _ => rfl) (fun _ => rfl)
  dsimp only
  split_ifs
  · exact parseHost_alike hmap field
  · refine .bind_same fun control => .ok ?_
    exact hmap.set (fun f => { f with connection := some field, connectionControl := some control })
      (fun _ => rfl) (fun _ => rfl)
  · refine .bind_same fun control => .ok ?_
    exact hmap.set
      (fun f => { f with proxyConnection := some field, proxyConnectionControl := some control })
      (fun _ => rfl) (fun _ => rfl)
  · exact .ok (hmap.set (fun f => { f with keepAlive := some field })
      (fun _ => rfl) (fun _ => rfl))
  · exact .ok (hmap.set (fun f => { f with contentType := some field })
      (fun _ => rfl) (fun _ => rfl))
  · exact parseTransferEncoding_alike hmap p field
  · exact .ok hmap

theorem analyzBodyLength_agree (p : Platform) : f.analyzBodyLength p = g.analyzBodyLength p := by
  have hvalues : g.transferEncodingValues = f.transferEncodingValues := by
    have hsame := congrArg HttpFieldsV11.transferEncodingValues h
    exact hsame
  have hencoding : g.transferEncoding.getD [] = f.transferEncoding.getD [] := by
    have hsame := congrArg HttpFieldsV11.transferEncoding h
    exact Option.some.inj hsame
  have hfind : g.tryFindTransferEncoding = f.tryFindTransferEncoding := by
    unfold HttpFieldsV11.tryFindTransferEncoding
    rw [hvalues]
    revert hencoding
    rcases g.transferEncoding with _ | (_ | _) <;> rcases f.transferEncoding with _ | (_ | _) <;>
      simp
  have hline : g.tryFindContentLengthLine p = f.tryFindContentLengthLine p := by
    unfold HttpFieldsV11.tryFindContentLengthLine
    rw [h.lines]
  unfold HttpFieldsV11.analyzBodyLength HttpFieldsV11.isChunkedLast
  rw [hfind, hline, hvalues]

end Agree

theorem parseStartLine_alike {leak : Bool} {f g : HttpFieldsV11} (split : List Str)
    (h : Agree leak { f with statusCode := 0 } { g with statusCode := 0 }) :
    Alike (Agree leak) (f.parseStartLine split) (g.parseStartLine split) := by
  have hresponse : g.isResponse = f.isResponse := h.isResponse
  have hrequest : g.isRequest = f.isRequest := h.isRequest
  unfold HttpFieldsV11.parseStartLine
  by_cases hr : f.isResponse = true
  · rw [if_pos hr, if_pos (hresponse.trans hr)]
    refine .bind_same fun version => .bind_same fun code => .bind_same fun statusCode =>
      .bind_same fun statusText => .ok ?_
    have hset := h.set
      (fun f => { f with version := some version, statusText := some statusText })
      (fun _ => rfl) (fun _ => rfl)
    have hcode := congrArg (fun f : HttpFieldsV11 => { f with statusCode }) hset
    simpa [Agree, HttpFieldsV11.shown, HttpFieldsV11.withConnect, hr, hresponse] using hcode
  · have hrg : ¬ g.isResponse = true := by rwa [hresponse]
    rw [if_neg hr, if_neg hrg]
    have hfg : Agree leak f g := by
      simpa [Agree, HttpFieldsV11.shown, HttpFieldsV11.withConnect, hr, hresponse] using h
    by_cases hq : f.isRequest = true
    · rw [if_pos hq, if_pos (hrequest.trans hq)]
      refine .bind_same fun method => .bind_same fun relativeReference =>
        .bind_same fun version => .ok ?_
      exact hfg.set (fun f => { f with
        method := some method
        relativeReference := some relativeReference
        version := some version }) (fun _ => rfl) (fun _ => rfl)
    · have hqg : ¬ g.isRequest = true := by rwa [hrequest]
      rw [if_neg hq, if_neg hqg]
      exact .ok hfg

theorem parseInitLine_alike {leak : Bool} {f g : HttpFieldsV11} (p : Platform) (initLine : Str)
    (h : Agree leak { f with statusCode := 0 } { g with statusCode := 0 }) :
    Alike (Agree leak) (f.parseInitLine p initLine) (g.parseInitLine p initLine) := by
  have hinit := h.set (fun f => { f with initLine := some initLine })
    (fun _ => rfl) (fun _ => rfl)
  have hstart : Alike (Agree leak)
      ({ f with initLine := some initLine }.parseStartLine (Str.split 0x20 initLine))
      ({ g with initLine := some initLine }.parseStartLine (Str.split 0x20 initLine)) :=
    parseStartLine_alike _ hinit
  unfold HttpFieldsV11.parseInitLine
  apply hstart.bind
  intro f g hfg
  refine .ok (hfg.set (fun f => { f with
    isConnectRequired :=
      p.culture.containsIgnoreCase initLine ConstantsForHttp.CONNECT || f.isConnectRequired })
    (fun _ => rfl) fun f => ?_)
  simp [HttpFieldsV11.withConnect, Bool.or_assoc]

theorem parseLines_alike {leak : Bool} {f g : HttpFieldsV11} (p : Platform)
    (h : Agree leak { f with statusCode := 0 } { g with statusCode := 0 }) :
    Alike (Agree leak) (f.parseLines p) (g.parseLines p) := by
  have hlines : g.lines = f.lines := h.lines
  unfold HttpFieldsV11.parseLines
  rw [hlines]
  cases f.lines with
  | nil => exact .error _
  | cons initLine _ =>
    refine (parseInitLine_alike p initLine h).bind fun f g hfg => ?_
    have hfields : g.fieldLines = f.fieldLines := by
      unfold HttpFieldsV11.fieldLines
      rw [hfg.lines]
    rw [hfields]
    exact Alike.foldlM (fun _ _ field hab => parseField_alike hab p field) _ hfg

/-! ### Two bodies -/

/-- Bodies that received the same bytes, possibly into different arrays. -/
structure SameBody (a b : HttpBody) : Prop where
  rest : { a with buffer := [], datas := [] } = { b with buffer := [], datas := [] }
  length : a.datas.length = b.datas.length
  got : a.datas.take a.completed = b.datas.take b.completed

theorem SameBody.refl (b : HttpBody) : SameBody b b := ⟨rfl, rfl, rfl⟩

theorem SameBody.shown {a b : HttpBody} (h : SameBody a b) : a.shown = b.shown := by
  have hset := congrArg (fun c : HttpBody => { c with datas := a.datas.take a.completed }) h.rest
  rw [HttpBody.shown, HttpBody.shown, ← h.got]
  exact hset

theorem setBodyLength_alike {p q : ArrayPool} (length : ℤ) {b : HttpBody} (hb : b.completed = 0) :
    Alike SameBody (b.setBodyLength p length) (b.setBodyLength q length) := by
  unfold HttpBody.setBodyLength ArrayPool.rent
  split_ifs with hn hm
  · exact .error _
  · exact .error _
  · refine .ok ⟨rfl, ?_, ?_⟩
    · simp [p.contents_length, q.contents_length]
    · simp [hb]

/-- Objects that wait for the same body. -/
structure SameObject (leak : Bool) (o o' : HttpObject) : Prop where
  fields : Agree leak o.fields o'.fields
  body : SameBody o.body o'.body
  chunked : o.isReadingBodyChunked = true → o.isReadingBody = false ∧ o.body = o'.body
  isCompleted : o.isCompleted = o'.isCompleted
  isReadingFields : o.isReadingFields = false ∧ o'.isReadingFields = false
  isReadingBody : o.isReadingBody = o'.isReadingBody
  isReadingBodyChunked : o.isReadingBodyChunked = o'.isReadingBodyChunked

section SameObject
variable {leak : Bool} {o o' : HttpObject} (h : SameObject leak o o')
include h

theorem SameObject.shown : (o.withConnect leak).shown = o'.shown := by
  have hfields : (o.fields.withConnect leak).shown = o'.fields.shown := h.fields.symm
  have hbody := h.body.shown
  have hreading := h.isReadingFields.1.trans h.isReadingFields.2.symm
  simp only [HttpObject.withConnect, HttpObject.shown, hfields, hbody, h.isCompleted,
    h.isReadingBody, h.isReadingBodyChunked, hreading]

theorem fillBody_alike (hbody : o.isReadingBody = true) (seq : List UInt8) :
    Alike (fun r r' => SameObject leak r.1 r'.1 ∧ r.2 = r'.2)
      (o.fillBody seq) (o'.fillBody seq) := by
  have hchunked : o.isReadingBodyChunked = false := by
    by_contra hne
    have := (h.chunked (by simpa using hne)).1
    simp [hbody] at this
  have hcompleted : o.body.completed = o'.body.completed := by
    have hsame := congrArg HttpBody.completed h.body.rest
    exact hsame
  have hleft : o.body.leftToRead = o'.body.leftToRead := by
    have hsame := congrArg HttpBody.leftToRead h.body.rest
    exact hsame
  unfold HttpObject.fillBody HttpBody.write
  by_cases hc : o.body.datas.length < o.body.completed + seq.length
  · have hc' : o'.body.datas.length < o'.body.completed + seq.length := by
      rwa [← h.body.length, ← hcompleted]
    rw [if_pos hc, if_pos hc']
    exact .error _
  · have hc' : ¬ o'.body.datas.length < o'.body.completed + seq.length := by
      rwa [← h.body.length, ← hcompleted]
    rw [if_neg hc, if_neg hc']
    refine .ok ⟨⟨h.fields, ⟨?_, ?_, ?_⟩, ?_, ?_, h.isReadingFields, ?_, h.isReadingBodyChunked⟩, rfl⟩
    · exact congrArg (fun c : HttpBody => { c with
        completed := c.completed + seq.length
        leftToRead := c.leftToRead - seq.length }) h.body.rest
    · simp only
      rw [writeAt_length (by omega), writeAt_length (by omega), h.body.length]
    · simp only
      rw [take_writeAt (by omega), take_writeAt (by omega), h.body.got]
    · intro hne
      simp only [hchunked] at hne
      cases hne
    · simp only [hleft]
    · simp only [hleft]

theorem enclose_alike {s : ChunkLoop} (hbody : o.isReadingBody = false) (seq : List UInt8) :
    Alike (fun r r' => SameObject leak r.1 r'.1 ∧ r.2 = r'.2)
      (o.enclose seq s) (o'.enclose seq s) := by
  unfold HttpObject.enclose
  split_ifs
  · refine .bind_same fun enclosure => .bind_same fun body => .bind_same fun body => .ok ⟨?_, rfl⟩
    exact ⟨h.fields, .refl _, (fun hne => by cases hne), rfl, h.isReadingFields, h.isReadingBody,
      rfl⟩
  · exact .ok ⟨⟨h.fields, .refl _, fun _ => ⟨hbody, rfl⟩, h.isCompleted, h.isReadingFields,
      h.isReadingBody, h.isReadingBodyChunked⟩, rfl⟩

theorem fillBodyChunked_alike (hchunked : o.isReadingBodyChunked = true) (seq : List UInt8) :
    Alike (fun r r' => SameObject leak r.1 r'.1 ∧ r.2 = r'.2)
      (o.fillBodyChunked seq) (o'.fillBodyChunked seq) := by
  obtain ⟨hreading, hbody⟩ := h.chunked hchunked
  unfold HttpObject.fillBodyChunked
  rw [← hbody]
  refine .bind_same fun start => .bind_same fun done => ?_
  exact (enclose_alike h hreading seq).mapError Halt.threw

theorem push_alike (p q : Platform) (seq : List UInt8) :
    Alike (fun r r' => SameObject leak r.1 r'.1 ∧ r.2 = r'.2) (o.push p seq) (o'.push q seq) := by
  rw [push_eq_pushBody h.isReadingFields.1, push_eq_pushBody h.isReadingFields.2]
  unfold HttpObject.pushBody
  rw [← h.isReadingBody, ← h.isReadingBodyChunked]
  by_cases hbody : o.isReadingBody = true
  · rw [if_pos hbody, if_pos hbody]
    refine ((fillBody_alike h hbody seq).mapError Halt.threw).bind fun r r' hr => .ok ⟨hr.1, ?_⟩
    rw [hr.2]
  · rw [if_neg hbody, if_neg hbody]
    by_cases hchunked : o.isReadingBodyChunked = true
    · rw [if_pos hchunked, if_pos hchunked]
      exact fillBodyChunked_alike h hchunked seq
    · rw [if_neg hchunked, if_neg hchunked]
      exact .ok ⟨h, rfl⟩

end SameObject

theorem pushAll_alike {leak : Bool} {o o' : HttpObject} (h : SameObject leak o o')
    (p q : Platform) (pending : List UInt8) (consumed : ℕ) (reads : List (List UInt8)) :
    Alike (fun t t' => SameObject leak t.object t'.object ∧ t.consumed = t'.consumed ∧
        t.left = t'.left)
      (pushAll p o pending consumed reads) (pushAll q o' pending consumed reads) := by
  induction reads generalizing o o' pending consumed with
  | nil => exact .ok ⟨h, rfl, rfl⟩
  | cons read reads ih =>
    unfold pushAll
    by_cases hnil : pending ++ read = []
    · simp only [hnil, if_true]
      exact ih h pending consumed
    · simp only [hnil, if_false]
      refine (push_alike h p q (pending ++ read)).bind fun r r' hr => ?_
      obtain ⟨hobject, hcount⟩ := hr
      rw [← hcount, ← hobject.isCompleted]
      split_ifs
      · exact .error _
      · exact .ok ⟨hobject, rfl, rfl⟩
      · exact ih hobject _ _

/-! ### Two header blocks -/

theorem BlockCut.unique {block pending first first' : List UInt8}
    {reads post post' : List (List UInt8)} (h : BlockCut block pending reads first post)
    (h' : BlockCut block pending reads first' post') : first = first' ∧ post = post' := by
  -- the read that completes the block is not before the other one
  have hle : ∀ {pre pre' post post' : List (List UInt8)} {read read' first : List UInt8},
      pre ++ read :: post = pre' ++ read' :: post' →
      pending ++ (pre.flatten ++ read) = block ++ first →
      (pending ++ pre'.flatten).length < block.length → pre'.length ≤ pre.length := by
    intro pre pre' post post' read read' first hreads hsplit hlt
    by_contra hgt
    obtain ⟨more, rfl⟩ : ∃ more, pre' = pre ++ read :: more := by
      have hp : pre ++ [read] <+: pre' := by
        have hread : pre ++ [read] <+: pre ++ read :: post := ⟨post, by simp⟩
        apply List.prefix_of_prefix_length_le hread (hreads ▸ List.prefix_append _ _)
        simp only [List.length_append, List.length_singleton]
        omega
      obtain ⟨more, rfl⟩ := hp
      exact ⟨more, by simp⟩
    have hlen := congrArg List.length hsplit
    simp only [List.flatten_append, List.flatten_cons, List.length_append] at hlen hlt
    omega
  obtain ⟨pre, read, hreads, hsplit, hlt⟩ := h.split
  obtain ⟨pre', read', hreads', hsplit', hlt'⟩ := h'.split
  have heq := hreads.symm.trans hreads'
  have hlen : pre.length = pre'.length :=
    Nat.le_antisymm (hle heq.symm hsplit' hlt) (hle heq hsplit hlt')
  obtain ⟨rfl, htail⟩ := List.append_inj heq hlen
  obtain ⟨rfl, rfl⟩ := List.cons.inj htail
  exact ⟨List.append_cancel_left (hsplit.symm.trans hsplit'), rfl⟩

theorem beginBody_alike {leak : Bool} {o o' : HttpObject} (p : Platform) (pool : ArrayPool)
    (ho : AtHeader o) (ho' : AtHeader o') {f g : HttpFieldsV11} (h : Agree leak f g) (length : ℤ) :
    Alike (SameObject leak)
      (HttpObject.beginBody p length { o with fields := f, isReadingFields := false })
      (HttpObject.beginBody { p with pool } length
        { o' with fields := g, isReadingFields := false }) := by
  have hbody : SameBody o.body o'.body := by
    rw [ho.body, ho'.body]
    exact .refl _
  have hreading := ho.isReadingBody.trans ho'.isReadingBody.symm
  have hchunked := ho.isReadingBodyChunked.trans ho'.isReadingBodyChunked.symm
  have hopen := ho.isCompleted.trans ho'.isCompleted.symm
  unfold HttpObject.beginBody
  split_ifs
  · have hrent : Alike SameBody (o.body.setBodyLength p.pool length)
        (o'.body.setBodyLength pool length) := by
      rw [ho.body, ho'.body]
      exact setBodyLength_alike length rfl
    refine hrent.bind fun body body' hsame => .ok ?_
    exact ⟨h, hsame, fun hne => absurd (ho.isReadingBodyChunked.symm.trans hne) (by simp), hopen,
      ⟨rfl, rfl⟩, rfl, hchunked⟩
  · refine .ok ⟨h, ?_, fun _ => ⟨ho.isReadingBody, ?_⟩, hopen, ⟨rfl, rfl⟩, hreading, rfl⟩
    · simp only [ho.body, ho'.body]
      exact .refl _
    · simp only [ho.body, ho'.body]
  · refine .ok ⟨h, hbody, fun _ => ⟨ho.isReadingBody, ?_⟩, rfl, ⟨rfl, rfl⟩, hreading, hchunked⟩
    exact ho.body.trans ho'.body.symm

theorem endFields_alike {leak : Bool} {o o' : HttpObject} (p : Platform) (pool : ArrayPool)
    (ho : AtHeader o) (ho' : AtHeader o')
    (h : Agree leak { o.fields with statusCode := 0 } { o'.fields with statusCode := 0 }) :
    Alike (SameObject leak) (o.endFields p) (o'.endFields { p with pool }) := by
  unfold HttpObject.endFields
  refine Alike.bind (R := Agree leak) ?_ fun f g hfg => .bind_same fun _ => ?_
  · exact parseLines_alike p h
  · have hlength : g.analyzBodyLength { p with pool } = f.analyzBodyLength p :=
      (analyzBodyLength_agree hfg p).symm
    rw [hlength]
    exact .bind_same fun length => beginBody_alike p pool ho ho' hfg length

/-- What `Dispose` leaves of an object when it returns. -/
def HttpObject.reused (kind : HttpKind) (leak : Bool) : HttpObject where
  fields := { (HttpObject.new kind).fields with isConnectRequired := leak }.dispose

/-- A message is read into a reused object as into a new one, but for one flag. -/
theorem pushAll_reused (p : Platform) (pool : ArrayPool) (kind : HttpKind) (leak : Bool)
    (h : HeaderBlock) {tail : List UInt8} {reads : List (List UInt8)}
    (split : reads.flatten = h.bytes ++ tail) :
    (pushAll { p with pool } (HttpObject.reused kind leak).beginMsg [] 0 reads).map Taken.shown =
      (readMessage p kind reads).map fun t => (t.withConnect leak).shown := by
  have hnew := atHeader_new kind
  have hreused : AtHeader (HttpObject.reused kind leak).beginMsg := ⟨rfl, rfl, rfl, rfl, rfl⟩
  obtain ⟨first, post, -, hcut, hread⟩ := pushAll_message p hnew h split
  obtain ⟨first', post', -, hcut', hread'⟩ := pushAll_message { p with pool } hreused h split
  obtain ⟨rfl, rfl⟩ := hcut.unique hcut'
  have hagree : Agree leak
      { ((HttpObject.new kind).beginMsg.addLines p h.lines).fields with statusCode := 0 }
      { ((HttpObject.reused kind leak).beginMsg.addLines { p with pool } h.lines).fields with
        statusCode := 0 } := by
    cases kind <;> rfl
  have hend := endFields_alike p pool (hnew.addLines h.lines) (hreused.addLines h.lines) hagree
  have htaken : Alike (fun t t' => SameObject leak t.object t'.object ∧ t.consumed = t'.consumed ∧
      t.left = t'.left) (readMessage p kind reads)
      (pushAll { p with pool } (HttpObject.reused kind leak).beginMsg [] 0 reads) := by
    unfold readMessage
    rw [hread, hread']
    generalize ((HttpObject.new kind).beginMsg.addLines p h.lines).endFields p = x at hend ⊢
    generalize ((HttpObject.reused kind leak).beginMsg.addLines { p with pool } h.lines).endFields
      { p with pool } = y at hend ⊢
    cases hend with
    | error fault => exact .error _
    | ok hsame =>
      dsimp only
      rw [← hsame.isCompleted]
      split_ifs
      · exact .ok ⟨hsame, rfl, rfl⟩
      · exact pushAll_alike hsame p _ _ _ _
  refine (htaken.map_eq fun t t' ht => ?_).symm
  obtain ⟨hsame, hconsumed, hleft⟩ := ht
  have hshown := hsame.shown
  simp only [Taken.shown, Taken.withConnect, hshown, hconsumed, hleft]

/-! ### What `Dispose` leaves -/

/-- The start line has the word `connect` in it. -/
def HeaderBlock.mentionsConnect (p : Platform) (h : HeaderBlock) : Bool :=
  p.culture.containsIgnoreCase (HttpFieldsV11.decodeLine p (h.startLine ++ CRLF))
    ConstantsForHttp.CONNECT

/-- The flags that `Dispose` leaves as they are. -/
def HttpFieldsV11.flags (f : HttpFieldsV11) : Bool × Bool × Bool :=
  (f.isRequest, f.isResponse, f.isConnectRequired)

theorem dispose_congr {f g : HttpFieldsV11} (h : f.flags = g.flags) : f.dispose = g.dispose := by
  simp only [HttpFieldsV11.flags, Prod.mk.injEq] at h
  obtain ⟨hrequest, hresponse, hconnect⟩ := h
  simp only [HttpFieldsV11.dispose, hrequest, hresponse, hconnect]

theorem parseHost_flags {field : Str} {f g : HttpFieldsV11} (h : f.parseHost field = .ok g) :
    g.flags = f.flags := by
  obtain ⟨hostValue, -, h⟩ := do_ok_iff.mp h
  dsimp only at h
  split at h
  · obtain ⟨hostPort, -, h⟩ := do_ok_iff.mp h
    cases h
    rfl
  · cases h
    rfl

theorem parseField_flags {p : Platform} {field : Str} {f g : HttpFieldsV11}
    (h : f.parseField p field = .ok g) : g.flags = f.flags := by
  obtain ⟨name, -, h⟩ := do_ok_iff.mp h
  obtain ⟨value, -, h⟩ := do_ok_iff.mp h
  dsimp only at h
  split_ifs at h
  · have hflags := parseHost_flags h
    exact hflags
  · obtain ⟨control, -, h⟩ := do_ok_iff.mp h
    cases h
    rfl
  · obtain ⟨control, -, h⟩ := do_ok_iff.mp h
    cases h
    rfl
  · cases h
    rfl
  · cases h
    rfl
  · obtain ⟨transferEncoding, -, h⟩ := do_ok_iff.mp h
    cases h
    rfl
  · cases h
    rfl

theorem parseStartLine_flags {split : List Str} {f g : HttpFieldsV11}
    (h : f.parseStartLine split = .ok g) : g.flags = f.flags := by
  unfold HttpFieldsV11.parseStartLine at h
  split_ifs at h
  · obtain ⟨version, -, h⟩ := do_ok_iff.mp h
    obtain ⟨code, -, h⟩ := do_ok_iff.mp h
    obtain ⟨statusCode, -, h⟩ := do_ok_iff.mp h
    obtain ⟨statusText, -, h⟩ := do_ok_iff.mp h
    cases h
    rfl
  · obtain ⟨method, -, h⟩ := do_ok_iff.mp h
    obtain ⟨relativeReference, -, h⟩ := do_ok_iff.mp h
    obtain ⟨version, -, h⟩ := do_ok_iff.mp h
    cases h
    rfl
  · cases h
    rfl

theorem parseLines_flags {p : Platform} {f g : HttpFieldsV11} {initLine : Str} {more : List Str}
    (hlines : f.lines = initLine :: more) (h : f.parseLines p = .ok g) :
    g.flags = (f.isRequest, f.isResponse,
      p.culture.containsIgnoreCase initLine ConstantsForHttp.CONNECT || f.isConnectRequired) := by
  unfold HttpFieldsV11.parseLines at h
  rw [hlines] at h
  obtain ⟨m, hm, hfold⟩ := do_ok_iff.mp h
  obtain ⟨k, hk, hm⟩ := do_ok_iff.mp hm
  have hflags := parseStartLine_flags hk
  simp only [HttpFieldsV11.flags, Prod.mk.injEq] at hflags
  obtain ⟨hrequest, hresponse, hconnect⟩ := hflags
  cases hm
  rw [foldlM_preserves (fun _ _ _ => parseField_flags) hfold]
  simp only [HttpFieldsV11.flags, hrequest, hresponse, hconnect]

theorem pushBody_fields {o o' : HttpObject} {seq : List UInt8} {n : ℤ}
    (h : o.pushBody seq = .ok (o', n)) :
    o'.fields = o.fields ∧ o'.isReadingFields = o.isReadingFields := by
  unfold HttpObject.pushBody at h
  split_ifs at h
  · obtain ⟨r, hr, h⟩ := do_ok_iff.mp h
    rw [mapError_ok_iff] at hr
    obtain ⟨body, -, hr⟩ := do_ok_iff.mp hr
    cases hr
    cases h
    exact ⟨rfl, rfl⟩
  · obtain ⟨start, -, h⟩ := do_ok_iff.mp h
    obtain ⟨done, -, h⟩ := do_ok_iff.mp h
    rw [mapError_ok_iff] at h
    unfold HttpObject.enclose at h
    split_ifs at h
    · obtain ⟨enclosure, -, h⟩ := do_ok_iff.mp h
      obtain ⟨body, -, h⟩ := do_ok_iff.mp h
      obtain ⟨body', -, h⟩ := do_ok_iff.mp h
      cases h
      exact ⟨rfl, rfl⟩
    · cases h
      exact ⟨rfl, rfl⟩
  · cases h
    exact ⟨rfl, rfl⟩

theorem pushAll_fields {p : Platform} {o : HttpObject} (ho : o.isReadingFields = false)
    {pending : List UInt8} {consumed : ℕ} {reads : List (List UInt8)} {t : Taken}
    (h : pushAll p o pending consumed reads = .ok t) : t.object.fields = o.fields := by
  induction reads generalizing o pending consumed with
  | nil => cases h; rfl
  | cons read reads ih =>
    by_cases hnil : pending ++ read = []
    · obtain ⟨rfl, rfl⟩ := List.append_eq_nil_iff.mp hnil
      rw [pushAll_cons_nil] at h
      exact ih ho h
    · rw [pushAll_cons hnil] at h
      obtain ⟨⟨o', n⟩, hpush, hsettle⟩ := bind_ok_iff.mp h
      rw [push_eq_pushBody ho] at hpush
      obtain ⟨hfields, hreading⟩ := pushBody_fields hpush
      unfold settle at hsettle
      split_ifs at hsettle
      · cases hsettle
        exact hfields
      · exact (ih (hreading.trans ho) hsettle).trans hfields

theorem readMessage_flags {p : Platform} {kind : HttpKind} {h : HeaderBlock} {tail : List UInt8}
    {reads : List (List UInt8)} (split : reads.flatten = h.bytes ++ tail) {t : Taken}
    (ht : readMessage p kind reads = .ok t) :
    t.object.fields.flags = ((HttpObject.new kind).fields.isRequest,
      (HttpObject.new kind).fields.isResponse, h.mentionsConnect p) := by
  obtain ⟨first, post, -, -, hread⟩ := pushAll_message p (atHeader_new kind) h split
  unfold readMessage at ht
  rw [ht] at hread
  cases hend : ((HttpObject.new kind).beginMsg.addLines p h.lines).endFields p with
  | error fault =>
    rw [hend] at hread
    cases hread
  | ok e =>
    obtain ⟨fields, length, hparse, -, hbegin⟩ := endFields_ok_iff.mp hend
    have hfields : e.fields = fields ∧ e.isReadingFields = false := by
      rcases beginBody_cases hbegin with ⟨-, b, -, rfl⟩ | ⟨-, rfl⟩ | ⟨-, -, rfl⟩ <;>
        exact ⟨rfl, rfl⟩
    have hlines : ((HttpObject.new kind).beginMsg.addLines p h.lines).fields.lines =
        HttpFieldsV11.decodeLine p (h.startLine ++ CRLF) ::
          (h.fields.map (fun l => l ++ CRLF) ++ [CRLF]).map (HttpFieldsV11.decodeLine p) := by
      cases kind <;> rfl
    have hflags := parseLines_flags hlines hparse
    rw [hend] at hread
    dsimp only at hread
    have htaken : t.object.fields = e.fields := by
      split_ifs at hread
      · cases hread
        rfl
      · exact pushAll_fields hfields.2 hread.symm
    rw [htaken, hfields.1, hflags]
    cases kind <;> simp [HeaderBlock.mentionsConnect, HttpObject.new, HttpObject.beginMsg,
      HttpObject.addLines]

theorem HttpObject.dispose_iff {used o : HttpObject} :
    used.dispose = .ok o ↔ returnable used.body.buffer.length = true ∧
      o = { fields := used.fields.dispose } := by
  have hbody : used.body.dispose = if returnable used.body.buffer.length then .ok {}
      else .error (.raised .argument) := by
    unfold HttpBody.dispose ArrayPool.giveBack
    by_cases hlen : used.body.buffer.length > 0
    · rw [if_pos hlen]
      split_ifs <;> rfl
    · rw [if_neg hlen, Nat.eq_zero_of_not_pos hlen]
      rfl
  unfold HttpObject.dispose
  rw [hbody]
  by_cases hreturn : returnable used.body.buffer.length = true
  · simp [hreturn, bind, Except.bind, eq_comm]
  · simp [hreturn, bind, Except.bind]

/-! ### Two messages in one object -/

/-- A message and what follows it, as they arrive on a connection. -/
structure Arrival where
  header : HeaderBlock
  rest : List UInt8
  reads : List (List UInt8)
  split : reads.flatten = header.bytes ++ rest

/-- Reading `m` into the object that was used before shows the same as reading it into a new
one, whatever the arrays of the pool hold by then. -/
def LeaksNothing (p : Platform) (kind : HttpKind) (used : HttpObject) (m : Arrival) : Prop :=
  ∃ o, used.dispose = .ok o ∧ ∀ pool,
    (pushAll { p with pool } o.beginMsg [] 0 m.reads).map Taken.shown =
      (readMessage p kind m.reads).map Taken.shown

/-- A new object throws on the message. -/
def Arrival.rejected (p : Platform) (kind : HttpKind) (m : Arrival) : Prop :=
  ∃ halt, readMessage p kind m.reads = .error halt

/-- An object after its first message. -/
structure Used (p : Platform) (kind : HttpKind) where
  message : Arrival
  pool : ArrayPool
  taken : Taken
  read : readMessage { p with pool } kind message.reads = .ok taken

theorem shown_withConnect_iff {leak : Bool} {t : Taken} :
    (t.withConnect leak).shown = t.shown ↔
      (leak = true → t.object.fields.isConnectRequired = true) := by
  constructor
  · intro h hleak
    have hflag := congrArg (fun t : Taken => t.object.fields.isConnectRequired) h
    change (t.object.fields.isConnectRequired || leak) = t.object.fields.isConnectRequired at hflag
    rwa [hleak, Bool.or_true, eq_comm] at hflag
  · intro h
    have hor : (t.object.fields.isConnectRequired || leak) = t.object.fields.isConnectRequired := by
      cases leak with
      | false => exact Bool.or_false _
      | true => rw [h rfl, Bool.or_true]
    unfold Taken.withConnect HttpObject.withConnect HttpFieldsV11.withConnect
    rw [hor]

/-- The object goes back clean when the pool takes the array of its body, and the flag for
`CONNECT` was not raised, or is to be raised again, or the message is not read at all. -/
theorem leaksNothing_iff (p : Platform) (kind : HttpKind) (used : Used p kind) (m : Arrival) :
    LeaksNothing p kind used.taken.object m ↔
      returnable used.taken.object.body.buffer.length = true ∧
        (used.message.header.mentionsConnect p = true →
          m.header.mentionsConnect p = true ∨ m.rejected p kind) := by
  have hused := readMessage_flags used.message.split used.read
  generalize hleak : used.message.header.mentionsConnect p = leak
  have hdispose : used.taken.object.fields.dispose = (HttpObject.reused kind leak).fields := by
    apply dispose_congr
    rw [hused, ← hleak]
    rfl
  have hreused : ∀ pool, (pushAll { p with pool } (HttpObject.reused kind leak).beginMsg [] 0
      m.reads).map Taken.shown =
        (readMessage p kind m.reads).map fun t => (t.withConnect leak).shown :=
    fun pool => pushAll_reused p pool kind leak m.header m.split
  unfold LeaksNothing
  constructor
  · rintro ⟨o, hd, hall⟩
    obtain ⟨hreturn, rfl⟩ := HttpObject.dispose_iff.mp hd
    refine ⟨hreturn, fun hraised => ?_⟩
    have hsame := hall p.pool
    rw [hdispose] at hsame
    have hmap := (hreused p.pool).symm.trans hsame
    cases hread : readMessage p kind m.reads with
    | error halt => exact .inr ⟨halt, hread⟩
    | ok t =>
      rw [hread] at hmap
      have hflag := shown_withConnect_iff.mp (Except.ok.inj hmap) hraised
      have hflags := congrArg (fun f => f.2.2) (readMessage_flags m.split hread)
      exact .inl (hflags.symm.trans hflag)
  · rintro ⟨hreturn, hconnect⟩
    refine ⟨_, HttpObject.dispose_iff.mpr ⟨hreturn, rfl⟩, fun pool => ?_⟩
    rw [hdispose]
    refine (hreused pool).trans ?_
    cases hread : readMessage p kind m.reads with
    | error halt => rfl
    | ok t =>
      refine congrArg Except.ok (shown_withConnect_iff.mpr fun hraised => ?_)
      have hflags := congrArg (fun f => f.2.2) (readMessage_flags m.split hread)
      rcases hconnect hraised with hmention | ⟨halt, hhalt⟩
      · exact hflags.trans hmention
      · rw [hread] at hhalt
        cases hhalt

/-- A tunnel is asked for, then a page. -/
def connectArrival : Arrival where
  header := ⟨asciiBytes "CONNECT a:1 HTTP/1.1", [asciiBytes "Host: a:1"], by decide⟩
  rest := []
  reads := [asciiBytes "CONNECT a:1 HTTP/1.1\r\nHost: a:1\r\n\r\n"]
  split := by decide

def pageArrival : Arrival where
  header := ⟨asciiBytes "GET / HTTP/1.1", [asciiBytes "Host: a"], by decide⟩
  rest := []
  reads := [asciiBytes "GET / HTTP/1.1\r\nHost: a\r\n\r\n"]
  split := by decide

/-- What is left of the request for a tunnel. -/
def connectTaken : Taken :=
  match readMessage {} .request connectArrival.reads with
  | .ok taken => taken
  | .error _ => ⟨{}, 0, []⟩

def usedForConnect : Used {} .request where
  message := connectArrival
  pool := .zeroed
  taken := connectTaken
  read := by rfl

theorem not_leaksNothing_connect :
    ¬ LeaksNothing {} .request usedForConnect.taken.object pageArrival := by
  rintro ⟨o, hd, hall⟩
  obtain ⟨-, rfl⟩ := HttpObject.dispose_iff.mp hd
  have hflag := congrArg (fun r => r.map fun t : Taken => t.object.fields.isConnectRequired)
    (hall .zeroed)
  have hraised : ((pushAll {} ({ fields := usedForConnect.taken.object.fields.dispose } :
      HttpObject).beginMsg [] 0 pageArrival.reads).map Taken.shown).map
        (fun t => t.object.fields.isConnectRequired) = .ok true := by rfl
  have hfresh : ((readMessage {} .request pageArrival.reads).map Taken.shown).map
      (fun t => t.object.fields.isConnectRequired) = .ok false := by rfl
  cases (hraised.symm.trans hflag).trans hfresh

end DecodingProxy.Http
