import DecodingProxy.Http.Messages
import DecodingProxy.Lib.Runs
import DecodingProxy.Runtime.ArrayPool
import DecodingProxy.Runtime.Text

/-!
# `AwaitHeadersWithEmptyBody`

The loop reads until the bytes read end with an empty line and returns how many they are. It
looks for them in the buffer that it gives to every read, and every read fills this buffer from
its start.
-/

namespace DecodingProxy.Http
open DecodingProxy.Arrays DecodingProxy.Runtime DecodingProxy.Runs

/-- `buffer[index] == b && buffer[index + 1] == ..`: a comparison that fails is the last. -/
def equalsAt (buffer : List UInt8) : ℕ → List UInt8 → Except Fault Bool
  | _, [] => .ok true
  | index, b :: bs => do
    let c ← Str.item buffer index
    if c = b then equalsAt buffer (index + 1) bs else .ok false

/-- The loop has returned with the reads that it left, or it waits for one more read. -/
inductive HeadWait
  | returned (size : ℤ) (rawReadBuffer : List UInt8) (unread : List (List UInt8))
  | waits
  deriving DecidableEq, Repr

def headLoop (rawReadBuffer : List UInt8) (size : ℤ) : List (List UInt8) → Except Fault HeadWait
  | [] => .ok .waits
  | read :: reads => do
    let rawReadBuffer ← copyTo read rawReadBuffer 0
    let size := int32 (size + read.length)
    let ended ← (if size > 4 then equalsAt rawReadBuffer (size - 4).toNat (CRLF ++ CRLF)
      else .ok false)
    if ended then .ok (.returned size rawReadBuffer reads)
    else headLoop rawReadBuffer size reads

/-- Both overloads, the one that reads from a socket and the one that reads from a stream. -/
def awaitHeadersWithEmptyBody (rawReadBuffer : List UInt8) (reads : List (List UInt8)) :
    Except Fault HeadWait :=
  headLoop rawReadBuffer 0 reads

/-- It begins with the method, and the empty line that ends it is the first one. -/
structure IsRequestHead (head : List UInt8) : Prop where
  method : ∃ b ∈ head.head?, b ≠ CR ∧ b ≠ LF
  ends : CRLF ++ CRLF <:+ head
  first : ∀ part ∈ head.inits, CRLF ++ CRLF <:+ part → part = head

/-- What the reads into a buffer of `capacity` bytes can make of a head. -/
structure ArrivesIn (capacity : ℕ) (head : List UInt8) (reads : List (List UInt8)) : Prop where
  split : reads.flatten = head
  nonempty : ∀ read ∈ reads, read ≠ []
  fits : ∀ read ∈ reads, read.length ≤ capacity

/-- The loop returns on these reads, with all that it has read in the buffer, and this ends with
the empty line. -/
def CollectsHead (rawReadBuffer : List UInt8) (reads : List (List UInt8)) : Prop :=
  ∃ (n : ℕ) (buffer : List UInt8) (made unread : List (List UInt8)),
    awaitHeadersWithEmptyBody rawReadBuffer reads = .ok (.returned n buffer unread) ∧
      reads = made ++ unread ∧ buffer.take n = made.flatten ∧ CRLF ++ CRLF <:+ made.flatten

variable {buffer head : List UInt8} {reads : List (List UInt8)}

theorem equalsAt_append (before bs after : List UInt8) :
    equalsAt (before ++ bs ++ after) before.length bs = .ok true := by
  induction bs generalizing before with
  | nil => rfl
  | cons b bs ih =>
    have hitem : Str.item (before ++ b :: bs ++ after) before.length = .ok b := by
      simp [Str.item]
    rw [equalsAt, do_of_ok hitem, if_pos rfl]
    have h := ih (before ++ [b])
    rwa [List.append_assoc before [b] bs, List.singleton_append, List.length_append,
      List.length_singleton] at h

/-- The buffer in which the loop finds the empty line begins with the last read. -/
theorem headLoop_returned {size n : ℤ} {found : List UInt8} {unread : List (List UInt8)}
    (h : headLoop buffer size reads = .ok (.returned n found unread)) :
    ∃ made last, reads = made ++ last :: unread ∧ last <+: found := by
  induction reads generalizing buffer size with
  | nil => cases h
  | cons read reads ih =>
    obtain ⟨copied, hcopy, h⟩ := do_ok_iff.mp h
    obtain ⟨ended, -, h⟩ := do_ok_iff.mp h
    split_ifs at h with hended
    · cases h
      obtain ⟨-, rfl⟩ := copyTo_inv hcopy
      exact ⟨[], read, rfl, by simp [writeAt]⟩
    · obtain ⟨made, last, rfl, hlast⟩ := ih h
      exact ⟨read :: made, last, rfl, hlast⟩

theorem headLoop_whole (hfits : head.length ≤ buffer.length) (hmax : buffer.length ≤ arrayMaxLength)
    (hhead : IsRequestHead head) :
    headLoop buffer 0 [head] = .ok (.returned head.length (writeAt buffer 0 head) []) := by
  obtain ⟨b, hb, hmethod⟩ := hhead.method
  obtain ⟨before, rfl⟩ := hhead.ends
  have hne : before ≠ [] := by
    rintro rfl
    cases hb
    exact hmethod.1 rfl
  have hpos : 0 < before.length := List.length_pos_iff.mpr hne
  have hlength : (before ++ (CRLF ++ CRLF)).length = before.length + 4 := by
    rw [List.length_append]
    rfl
  have hsize : int32 (0 + (before ++ (CRLF ++ CRLF)).length) = before.length + 4 := by
    have hsmall : arrayMaxLength < 2 ^ 31 := by decide
    rw [hlength, int32_of_range] <;> omega
  have hfound : equalsAt (writeAt buffer 0 (before ++ (CRLF ++ CRLF))) before.length
      (CRLF ++ CRLF) = .ok true := by
    rw [writeAt, List.take_zero, List.nil_append]
    exact equalsAt_append before (CRLF ++ CRLF) _
  rw [headLoop, do_of_ok (copyTo_ok (by omega))]
  dsimp only
  rw [hsize, if_pos (by omega), show ((before.length : ℤ) + 4 - 4).toNat = before.length by omega,
    do_of_ok hfound, if_pos rfl, hlength]
  rfl

/-- No last part of a head but the head itself begins it. -/
theorem IsRequestHead.eq_of_border (h : IsRequestHead head) {part : List UInt8} (hne : part ≠ [])
    (hfront : part <+: head) (hback : part <:+ head) : part = head := by
  rcases List.suffix_or_suffix_of_suffix h.ends hback with hlong | hshort
  · exact h.first part (List.mem_inits _ _ |>.mpr hfront) hlong
  · obtain ⟨b, hb, hcr, hlf⟩ := h.method
    obtain ⟨c, part, rfl⟩ := List.exists_cons_of_ne_nil hne
    obtain ⟨rest, rfl⟩ := hfront
    obtain rfl : c = b := Option.some.inj hb
    have hmem : c ∈ CRLF ++ CRLF := hshort.mem List.mem_cons_self
    have hline : c = CR ∨ c = LF := by
      simp only [CRLF, List.cons_append, List.nil_append, List.mem_cons, List.not_mem_nil] at hmem
      tauto
    rcases hline with rfl | rfl
    · exact absurd rfl hcr
    · exact absurd rfl hlf

theorem nil_of_flatten (hflat : reads.flatten = []) (hne : ∀ read ∈ reads, read ≠ []) :
    reads = [] :=
  List.eq_nil_iff_forall_not_mem.mpr fun read hread =>
    hne read hread (List.flatten_eq_nil_iff.mp hflat read hread)

theorem collectsHead_iff (hmax : buffer.length ≤ arrayMaxLength) (hhead : IsRequestHead head)
    (hreads : ArrivesIn buffer.length head reads) :
    CollectsHead buffer reads ↔ reads.length = 1 := by
  constructor
  · rintro ⟨n, found, made, unread, hreturned, rfl, hcontent, hends⟩
    obtain ⟨earlier, last, hmade, hlast⟩ := headLoop_returned hreturned
    obtain rfl : made = earlier ++ [last] :=
      List.append_cancel_right (hmade.trans (List.append_cons earlier last unread))
    -- what was read ends with an empty line, so that nothing of the head is left
    have hwhole : (earlier ++ [last]).flatten = head := by
      refine hhead.first _ ((List.mem_inits _ _).mpr ?_) hends
      rw [← hreads.split]
      exact ⟨unread.flatten, List.flatten_append.symm⟩
    have hunread : unread = [] := by
      have hsplit := hreads.split
      rw [List.flatten_append, hwhole] at hsplit
      exact nil_of_flatten (List.append_right_eq_self.mp hsplit) fun read hread =>
        hreads.nonempty read (List.mem_append_right _ hread)
    have hback : last <:+ head := by
      rw [← hwhole, List.flatten_append, List.flatten_singleton]
      exact List.suffix_append _ _
    have hfront : last <+: head := by
      rw [hwhole] at hcontent
      have htaken : head <+: found := hcontent ▸ List.take_prefix _ _
      exact List.prefix_of_prefix_length_le hlast htaken hback.length_le
    have hlastHead := hhead.eq_of_border (hreads.nonempty last (by simp)) hfront hback
    have hearlier : earlier = [] := by
      rw [List.flatten_append, List.flatten_singleton, hlastHead] at hwhole
      apply nil_of_flatten (List.append_left_eq_self.mp hwhole)
      intro read hread
      exact hreads.nonempty read (by simp [hread])
    rw [hearlier, hunread]
    rfl
  · intro hone
    obtain ⟨read, rfl⟩ := List.length_eq_one_iff.mp hone
    obtain rfl : read = head := by simpa using hreads.split
    have hfits := hreads.fits read (by simp)
    refine ⟨read.length, _, [read], [], headLoop_whole hfits hmax hhead, rfl, ?_, ?_⟩
    · simp [writeAt]
    · simpa using hhead.ends

/-- `GET / HTTP/1.1` and the empty line. -/
def getHead : List UInt8 :=
  [0x47, 0x45, 0x54, 0x20, 0x2F, 0x20, 0x48, 0x54, 0x54, 0x50, 0x2F, 0x31, 0x2E, 0x31, 0x0D, 0x0A,
    0x0D, 0x0A]

theorem getHead_isRequestHead : IsRequestHead getHead := by
  refine ⟨⟨0x47, rfl, by decide⟩, ?_, by decide⟩
  exact ⟨getHead.take 14, rfl⟩

theorem collectsHead_get :
    ArrivesIn 32 getHead [getHead] ∧
      (CollectsHead (List.replicate 32 0) [getHead] ↔ [getHead].length = 1) := by
  have hreads : ArrivesIn 32 getHead [getHead] := ⟨by decide, by decide, by decide⟩
  exact ⟨hreads, collectsHead_iff (by decide) getHead_isRequestHead hreads⟩

/-- The last line feed comes by itself. -/
theorem not_collectsHead_split :
    IsRequestHead getHead ∧ ArrivesIn 32 getHead [getHead.take 17, getHead.drop 17] ∧
      ¬ CollectsHead (List.replicate 32 0) [getHead.take 17, getHead.drop 17] := by
  refine ⟨getHead_isRequestHead, ⟨by decide, by decide, by decide⟩, ?_⟩
  rintro ⟨n, buffer, made, unread, hreturned, -⟩
  have hwaits : awaitHeadersWithEmptyBody (List.replicate 32 0)
      [getHead.take 17, getHead.drop 17] = .ok .waits := by decide
  rw [hwaits] at hreturned
  cases hreturned

end DecodingProxy.Http
