import DecodingProxy.Http.Messages
import DecodingProxy.Lib.Runs
import DecodingProxy.Runtime.ArrayPool

/-!
# `HttpBinaryMapped`

A message as one array of bytes, with a map of the lines of its header block. The array
grows while the message is read.
-/

namespace DecodingProxy.Piped
open DecodingProxy.Runtime DecodingProxy.Arrays DecodingProxy.Runs DecodingProxy.Http

/-- `TYPE_REQUEST` and `TYPE_RESPONSE`. -/
inductive MessageType
  | request
  | response
  deriving DecidableEq, Repr

namespace ConstantsForHttp

def LENGTH_LF : ℕ := 2
def NAME_HOST : List UInt8 := asciiBytes "Host"
def NAME_CONTENT_LENGTH : List UInt8 := asciiBytes "Content-Length"
def NAME_TRANSFER_ENCODING : List UInt8 := asciiBytes "Transfer-Encoding"
def VALUE_CHUNKED : List UInt8 := asciiBytes "chunked"

end ConstantsForHttp

/-- `ConstantsUtf8.SPACE`. -/
def SPACE : UInt8 := 0x20

open ConstantsForHttp

structure HttpBinaryMapped where
  type : MessageType
  datas : List UInt8 := []
  length : ℕ := 0
  indexEndFields : ℕ := 0
  indexEndBody : ℕ := 0
  maps : List (ℕ × ℕ) := []
  fieldsCount : ℕ := 0
  fieldsCountMapped : ℕ := 0
  isReadingUntilCloseConnection : Bool := false

/-- The loops of `GotSubsequenceProbablyAtBackCI`. Inside the inner one `inner` is what is left
to compare; after a mismatch the bytes compared so far are not looked at again. -/
def scanSubsequence (substring : List UInt8) : Option (List UInt8) → List UInt8 → Bool
  | some [], _ => true
  | _, [] => true
  | some (c :: inner), b :: src =>
    if lowerByte b = lowerByte c then scanSubsequence substring (some inner) src
    else scanSubsequence substring none src
  | none, b :: src =>
    if src.length + 1 ≤ substring.length then
      ((b :: src).zip substring).all fun p => lowerByte p.1 = lowerByte p.2
    else
      match substring with
      | [] => true
      | c :: inner =>
        if lowerByte b = lowerByte c then scanSubsequence substring (some inner) src
        else scanSubsequence substring none src

def gotSubsequenceProbablyAtBackCI (src substring : List UInt8) : Bool :=
  decide (substring.length ≤ src.length) && scanSubsequence substring none src

namespace HttpBinaryMapped

/-- `GetMemory`. -/
def memory (item : HttpBinaryMapped) : List UInt8 := item.datas.take item.length

/-- The branch of `EnsureCapacity` that rents a longer array. -/
def grow (pool : ArrayPool) (targetSize : ℤ) (item : HttpBinaryMapped) :
    Except Fault HttpBinaryMapped := do
  let newarr ← pool.rent targetSize
  let newarr ← (if 0 < item.length then arrayCopy item.datas newarr item.length else .ok newarr)
  let _ ← (if item.datas.length ≠ 0 then ArrayPool.giveBack item.datas else .ok ())
  .ok { item with datas := newarr }

/-- Room for `toAdd` more bytes, and the target size. -/
def ensureCapacity (pool : ArrayPool) (toAdd : ℕ) (item : HttpBinaryMapped) :
    Except Fault (HttpBinaryMapped × ℤ) :=
  let targetSize := int32 (toAdd + item.length)
  if item.datas.length < targetSize then (item.grow pool targetSize).map fun item => (item, targetSize)
  else .ok (item, targetSize)

/-- `CopyToSafe` to `new Span<byte>(datas, offset, seq.Length)`. -/
def copyIn (offset : ℕ) (seq : List UInt8) (item : HttpBinaryMapped) :
    Except Fault HttpBinaryMapped :=
  if item.datas.length < offset + seq.length then .error (.raised .argumentOutOfRange)
  else .ok { item with datas := writeAt item.datas offset seq }

def addField (pool : ArrayPool) (seq : List UInt8) (offset : ℕ) (item : HttpBinaryMapped) :
    Except Fault HttpBinaryMapped := do
  let (item, targetSize) ←
    { item with fieldsCount := item.fieldsCount + 1 }.ensureCapacity pool seq.length
  { item with length := targetSize.toNat }.copyIn offset seq

def addBody (seq : List UInt8) (item : HttpBinaryMapped) : Except Fault HttpBinaryMapped := do
  let item ← item.copyIn item.length seq
  .ok { item with length := item.length + seq.length }

def addBodyForSure (pool : ArrayPool) (seq : List UInt8) (item : HttpBinaryMapped) :
    Except Fault HttpBinaryMapped := do
  let offset := item.length
  let (item, targetSize) ← item.ensureCapacity pool seq.length
  { item with length := targetSize.toNat }.copyIn offset seq

/-- A longer map keeps the entries that were mapped. -/
def allocateFieldsMap (item : HttpBinaryMapped) : HttpBinaryMapped :=
  if item.maps.length < item.fieldsCount then
    { item with maps := item.maps.take item.fieldsCountMapped ++
        List.replicate (item.fieldsCount - item.fieldsCountMapped) (0, 0) }
  else item

def mapField (index offset length : ℕ) (item : HttpBinaryMapped) :
    Except Fault HttpBinaryMapped :=
  if index < item.maps.length then
    .ok { item with
      maps := item.maps.set index (offset, length)
      fieldsCountMapped := item.fieldsCountMapped + 1 }
  else .error (.raised .indexOutOfRange)

def fieldsStart (item : HttpBinaryMapped) : HttpBinaryMapped := { item with length := 0 }

def fieldsEnd (item : HttpBinaryMapped) : HttpBinaryMapped :=
  { item with indexEndFields := item.length }

def bodyEnd (item : HttpBinaryMapped) : HttpBinaryMapped :=
  { item with indexEndBody := item.length }

/-- The lines behind the first entries of the map. -/
def mappedLines (count : ℕ) (item : HttpBinaryMapped) : List (List UInt8) :=
  (item.maps.take count).map fun entry => (item.datas.drop entry.1).take entry.2

end HttpBinaryMapped

/-! ### What the lines of the header block say -/

/-- What follows the name, a colon and one more byte, up to the line end, unless it is empty. -/
def valueOfLine (fieldName span : List UInt8) : Option (List UInt8) :=
  let count := span.length - (fieldName.length + 4)
  if 0 < count then some ((span.drop (fieldName.length + 2)).take count) else none

def tryGetFieldValueCI (fieldName : List UInt8) (spans : List (List UInt8)) :
    Option (List UInt8) :=
  spans.findSome? fun span =>
    if fieldName.map lowerByte <+: span.map lowerByte then valueOfLine fieldName span else none

/-- Here the name is compared byte by byte. -/
def tryGetFieldValueAsInt (fieldName : List UInt8) (spans : List (List UInt8)) : Option ℤ :=
  spans.findSome? fun span =>
    if fieldName <+: span then
      (valueOfLine fieldName span).bind fun value => (Str.parseInt (chars value)).toOption
    else none

def checkChunked (spans : List (List UInt8)) : Bool :=
  match tryGetFieldValueCI NAME_TRANSFER_ENCODING spans with
  | some span => gotSubsequenceProbablyAtBackCI span VALUE_CHUNKED
  | none => false

/-- The text from the first space of the start line to the second one. -/
def getStatus (spans : List (List UInt8)) : Except Fault ℤ :=
  match spans with
  | [] => .error (.raised .indexOutOfRange)
  | span :: _ =>
    match span.dropWhile (· ≠ SPACE) with
    | [] => .error (.raised .indexOutOfRange)
    | space :: more =>
      let code := more.takeWhile (· ≠ SPACE)
      if code.length = more.length then .error (.raised .indexOutOfRange)
      else Str.parseInt (chars (space :: code))

def checkNoBody (type : MessageType) (spans : List (List UInt8)) : Except Fault Bool :=
  match type with
  | .request => .ok false
  | .response => do
    let status ← getStatus spans
    .ok (status < 200 || status = 204 || status = 304)

/-- `GetBodyLength` for the lines in the map, of which the first ones are `mapped`. -/
def bodyLengthOf (type : MessageType) (mapped spans : List (List UInt8)) : Except Fault ℤ := do
  if ← checkNoBody type spans then .ok 0
  else if checkChunked mapped then .ok (-2)
  else
    match tryGetFieldValueAsInt NAME_CONTENT_LENGTH spans with
    | some value => .ok value
    | none => .ok (-3)

def HttpBinaryMapped.getBodyLength (item : HttpBinaryMapped) : Except Fault ℤ :=
  bodyLengthOf item.type (item.mappedLines item.fieldsCountMapped)
    (item.mappedLines item.fieldsCount)

def exHostRequired : Fault := .thrown .invalidOperation "This is field must be in request"

/-- The host and the port in a value, with the port after the first colon. -/
def hostAndPort (value : List UInt8) : Except Fault (Str × ℤ) :=
  match value.dropWhile (· ≠ COLON) with
  | [] => .ok (Utf8.getString value, 80)
  | _ :: portSlice => do
    let port ← Str.parseInt (chars portSlice)
    .ok (Utf8.getString (value.takeWhile (· ≠ COLON)), port)

def HttpBinaryMapped.findHostAndPortFromField (item : HttpBinaryMapped) : Except Fault (Str × ℤ) :=
  match tryGetFieldValueCI NAME_HOST (item.mappedLines item.fieldsCountMapped) with
  | some value => hostAndPort value
  | none => .error exHostRequired

/-! ### Growing the array -/

namespace HttpBinaryMapped

/-- The bytes of the message are in the array, and the pool takes the array back. -/
structure WellFormed (item : HttpBinaryMapped) : Prop where
  room : item.length ≤ item.datas.length
  fits : item.datas.length ≤ arrayMaxLength
  returnable : returnable item.datas.length = true

theorem WellFormed.memory_length {item : HttpBinaryMapped} (h : item.WellFormed) :
    item.memory.length = item.length := by
  simp [memory, h.room]

theorem wellFormed_empty (type : MessageType) : ({ type } : HttpBinaryMapped).WellFormed :=
  ⟨Nat.zero_le _, Nat.zero_le _, rfl⟩

/-- The item after `seq` was added to its bytes. -/
structure Added (seq : List UInt8) (item item' : HttpBinaryMapped) : Prop where
  wellFormed : item'.WellFormed
  length : item'.length = item.length + seq.length
  memory : item'.memory = item.memory ++ seq
  rest : { item' with datas := [], length := 0 } = { item with datas := [], length := 0 }

theorem Added.refl {item : HttpBinaryMapped} (h : item.WellFormed) : Added [] item item :=
  ⟨h, rfl, (List.append_nil _).symm, rfl⟩

theorem Added.trans {as bs : List UInt8} {x y z : HttpBinaryMapped} (h : Added as x y)
    (h' : Added bs y z) : Added (as ++ bs) x z := by
  refine ⟨h'.wellFormed, ?_, ?_, h'.rest.trans h.rest⟩
  · rw [h'.length, h.length, List.length_append, Nat.add_assoc]
  · rw [h'.memory, h.memory, List.append_assoc]

theorem Added.indexEndFields {seq : List UInt8} {x y : HttpBinaryMapped} (h : Added seq x y) :
    y.indexEndFields = x.indexEndFields := by
  have heq := congrArg HttpBinaryMapped.indexEndFields h.rest
  exact heq

theorem Added.indexEndBody {seq : List UInt8} {x y : HttpBinaryMapped} (h : Added seq x y) :
    y.indexEndBody = x.indexEndBody := by
  have heq := congrArg HttpBinaryMapped.indexEndBody h.rest
  exact heq

theorem grow_ok (pool : ArrayPool) {size : ℕ} {item : HttpBinaryMapped} (h : item.WellFormed)
    (hroom : item.length ≤ size) (hfits : size ≤ arrayMaxLength) :
    ∃ array, item.grow pool size = .ok { item with datas := array } ∧
      array.take item.length = item.memory ∧ size ≤ array.length ∧
      array.length ≤ arrayMaxLength ∧ Runtime.returnable array.length = true := by
  have hrent := ArrayPool.rent_ok pool hfits
  obtain ⟨-, hle, hmax, hreturn⟩ := ArrayPool.rent_inv hrent
  have hback : (if item.datas.length ≠ 0 then ArrayPool.giveBack item.datas else .ok ()) =
      (.ok () : Except Fault Unit) := by
    split_ifs
    · rw [ArrayPool.giveBack, if_pos h.returnable]
    · rfl
  unfold grow
  rw [hrent, hback]
  change ∃ array, ((if 0 < item.length then
      arrayCopy item.datas (pool.contents size) item.length else .ok (pool.contents size)) >>=
    fun newarr => (.ok { item with datas := newarr } : Except Fault _)) = _ ∧ _
  by_cases hpos : 0 < item.length
  · have hcopy := @arrayCopy_ok _ (pool.contents size) _ h.room (by omega)
    obtain ⟨-, -, hlen, htake⟩ := arrayCopy_inv hcopy
    rw [if_pos hpos, hcopy]
    exact ⟨_, rfl, htake, by omega, by omega, by rwa [hlen]⟩
  · rw [if_neg hpos]
    refine ⟨_, rfl, ?_, by omega, hmax, hreturn⟩
    simp [memory, Nat.eq_zero_of_not_pos hpos]

theorem grow_inv {pool : ArrayPool} {size : ℤ} {item item' : HttpBinaryMapped}
    (h : item.grow pool size = .ok item') :
    item'.length = item.length ∧ item'.datas.length ≤ arrayMaxLength := by
  obtain ⟨rented, hrent, h⟩ := do_ok_iff.mp h
  obtain ⟨-, -, hmax, -⟩ := ArrayPool.rent_inv hrent
  obtain ⟨newarr, hcopy, h⟩ := do_ok_iff.mp h
  obtain ⟨_, -, h⟩ := do_ok_iff.mp h
  cases h
  refine ⟨rfl, ?_⟩
  split_ifs at hcopy
  · obtain ⟨-, -, hlen, -⟩ := arrayCopy_inv hcopy
    exact hlen.trans_le hmax
  · cases hcopy
    exact hmax

theorem ensureCapacity_ok (pool : ArrayPool) {toAdd : ℕ} {item : HttpBinaryMapped}
    (h : item.WellFormed) (hfits : item.length + toAdd ≤ arrayMaxLength) :
    ∃ array, item.ensureCapacity pool toAdd =
        .ok ({ item with datas := array }, ((item.length + toAdd : ℕ) : ℤ)) ∧
      array.take item.length = item.memory ∧ item.length + toAdd ≤ array.length ∧
      array.length ≤ arrayMaxLength ∧ Runtime.returnable array.length = true := by
  have hmax : arrayMaxLength < 2 ^ 31 := by decide
  have htarget : int32 (toAdd + item.length) = ((item.length + toAdd : ℕ) : ℤ) := by
    rw [int32_of_range (by omega) (by omega)]
    omega
  unfold ensureCapacity
  rw [htarget]
  by_cases hroom : (item.datas.length : ℤ) < ((item.length + toAdd : ℕ) : ℤ)
  · obtain ⟨array, hgrow, hrest⟩ := grow_ok pool h (Nat.le_add_right _ toAdd) hfits
    refine ⟨array, ?_, hrest⟩
    dsimp only
    rw [if_pos hroom, hgrow]
    rfl
  · refine ⟨item.datas, ?_, rfl, by omega, h.fits, h.returnable⟩
    dsimp only
    rw [if_neg hroom]

theorem ensureCapacity_inv {pool : ArrayPool} {toAdd : ℕ} {item item' : HttpBinaryMapped} {z : ℤ}
    (h : item.WellFormed) (he : item.ensureCapacity pool toAdd = .ok (item', z)) :
    item'.length = item.length ∧ item'.datas.length ≤ arrayMaxLength := by
  unfold ensureCapacity at he
  dsimp only at he
  split_ifs at he with hroom
  · cases hgrow : item.grow pool (int32 (toAdd + item.length)) with
    | error fault =>
      rw [hgrow] at he
      cases he
    | ok grown =>
      rw [hgrow] at he
      cases he
      exact grow_inv hgrow
  · cases he
    exact ⟨rfl, h.fits⟩

theorem copyIn_ok {item : HttpBinaryMapped} {offset : ℕ} {seq : List UInt8}
    (h : offset + seq.length ≤ item.datas.length) :
    item.copyIn offset seq = .ok { item with datas := writeAt item.datas offset seq } := by
  rw [copyIn, if_neg (by omega)]

theorem copyIn_inv {item item' : HttpBinaryMapped} {offset : ℕ} {seq : List UInt8}
    (h : item.copyIn offset seq = .ok item') :
    offset + seq.length ≤ item.datas.length ∧
      item' = { item with datas := writeAt item.datas offset seq } := by
  unfold copyIn at h
  split_ifs at h with hroom
  cases h
  exact ⟨Nat.not_lt.mp hroom, rfl⟩

theorem addBodyForSure_ok (pool : ArrayPool) (seq : List UInt8) {item : HttpBinaryMapped}
    (h : item.WellFormed) (hfits : item.length + seq.length ≤ arrayMaxLength) :
    ∃ item', item.addBodyForSure pool seq = .ok item' ∧ Added seq item item' := by
  obtain ⟨array, hensure, htake, hroom, hmax, hreturn⟩ := ensureCapacity_ok pool h hfits
  unfold addBodyForSure
  dsimp only
  rw [hensure]
  change ∃ item', copyIn item.length seq { item with
    datas := array, length := ((item.length + seq.length : ℕ) : ℤ).toNat } = .ok item' ∧ _
  rw [copyIn_ok hroom, Int.toNat_natCast]
  have hlen := writeAt_length hroom
  refine ⟨_, rfl, ⟨?_, ?_, ?_⟩, rfl, ?_, rfl⟩
  · simp only
    omega
  · simp only
    omega
  · simp only [hlen, hreturn]
  · simp only [memory, take_writeAt (show item.length ≤ array.length by omega), htake]

theorem addBodyForSure_inv {pool : ArrayPool} {seq : List UInt8} {item item' : HttpBinaryMapped}
    (h : item.WellFormed) (ha : item.addBodyForSure pool seq = .ok item') :
    item.length + seq.length ≤ arrayMaxLength := by
  obtain ⟨⟨grown, z⟩, hensure, ha⟩ := do_ok_iff.mp ha
  obtain ⟨-, hmax⟩ := ensureCapacity_inv h hensure
  have hroom : item.length + seq.length ≤ grown.datas.length := (copyIn_inv ha).1
  omega

theorem addBodyForSure_added {pool : ArrayPool} {seq : List UInt8} {item item' : HttpBinaryMapped}
    (h : item.WellFormed) (ha : item.addBodyForSure pool seq = .ok item') :
    Added seq item item' := by
  obtain ⟨added, hadded, hspec⟩ := addBodyForSure_ok pool seq h (addBodyForSure_inv h ha)
  cases hadded.symm.trans ha
  exact hspec

theorem addBody_ok (seq : List UInt8) {item : HttpBinaryMapped} (h : item.WellFormed)
    (hroom : item.length + seq.length ≤ item.datas.length) :
    ∃ item', item.addBody seq = .ok item' ∧ Added seq item item' ∧
      item'.datas.length = item.datas.length := by
  unfold addBody
  rw [copyIn_ok hroom]
  have hlen := writeAt_length hroom
  refine ⟨_, rfl, ⟨⟨?_, ?_, ?_⟩, rfl, ?_, rfl⟩, hlen⟩
  · simp only [hlen]
    exact hroom
  · simp only [hlen]
    exact h.fits
  · simp only [hlen]
    exact h.returnable
  · simp only [memory, take_writeAt h.room]

theorem addBody_added {seq : List UInt8} {item item' : HttpBinaryMapped} (h : item.WellFormed)
    (ha : item.addBody seq = .ok item') : Added seq item item' := by
  obtain ⟨copied, hcopy, -⟩ := do_ok_iff.mp ha
  obtain ⟨added, hadded, hspec, -⟩ := addBody_ok seq h (copyIn_inv hcopy).1
  cases hadded.symm.trans ha
  exact hspec

/-- A longer array, of whatever size, holds the bytes of the item. -/
theorem grow_added {pool : ArrayPool} {size : ℤ} {item item' : HttpBinaryMapped}
    (hg : item.grow pool size = .ok item') : Added [] item item' := by
  obtain ⟨rented, hrent, hg⟩ := do_ok_iff.mp hg
  obtain ⟨-, -, hmax, hreturn⟩ := ArrayPool.rent_inv hrent
  obtain ⟨newarr, hcopy, hg⟩ := do_ok_iff.mp hg
  obtain ⟨_, -, hg⟩ := do_ok_iff.mp hg
  cases hg
  have hkept : item.length ≤ newarr.length ∧ newarr.take item.length = item.memory ∧
      newarr.length = rented.length := by
    split_ifs at hcopy with hpos
    · obtain ⟨-, hle, hlen, htake⟩ := arrayCopy_inv hcopy
      exact ⟨hlen ▸ hle, htake, hlen⟩
    · cases hcopy
      have hzero := Nat.eq_zero_of_not_pos hpos
      simp [hzero, memory]
  obtain ⟨hroom, htake, hlen⟩ := hkept
  rw [← hlen] at hmax hreturn
  refine ⟨⟨hroom, hmax, hreturn⟩, rfl, ?_, rfl⟩
  rw [List.append_nil]
  exact htake

theorem ensureCapacity_added {pool : ArrayPool} {toAdd : ℕ} {item item' : HttpBinaryMapped}
    {z : ℤ} (h : item.WellFormed) (he : item.ensureCapacity pool toAdd = .ok (item', z)) :
    Added [] item item' := by
  unfold ensureCapacity at he
  dsimp only at he
  split_ifs at he with hroom
  · obtain ⟨grown, hgrow, heq⟩ := map_ok_iff.mp he
    cases heq
    exact grow_added hgrow
  · cases he
    exact .refl h

end HttpBinaryMapped

end DecodingProxy.Piped
