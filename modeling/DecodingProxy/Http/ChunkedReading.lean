import DecodingProxy.Http.HttpObject
import DecodingProxy.Lib.Runs
import Mathlib.Tactic.Common

/-!
# What `FillBodyChunked` does to an object

However the call ends, it leaves `datas` as it is, it reports no negative count, and it
reports two bytes for the enclosure when it completes the object. A call whose buffer
holds no line feed at the head of its loop does not return.
-/

namespace DecodingProxy.Http
open DecodingProxy.Runtime DecodingProxy.Lines DecodingProxy.Runs

theorem appendChunked_datas {seq : List UInt8} {b b' : HttpBody}
    (h : b.appendChunked seq = .ok b') : b'.datas = b.datas := by
  unfold HttpBody.appendChunked at h
  split at h
  · cases h
  · simp only at h
    split_ifs at h <;> cases h <;> rfl

namespace HttpObject

theorem chunkTurn_inv {seqLength : ℕ} {s t : ChunkLoop} (h : chunkTurn seqLength s = .ok t) :
    t.body.datas = s.body.datas ∧ s.consumed ≤ t.consumed ∧
      (lines LF s.buffer = [] ∧ t = s ∨ lines LF s.buffer ≠ [] ∧
        t.buffer.length < s.buffer.length) := by
  unfold chunkTurn at h
  split at h
  · rename_i hl
    cases h
    exact ⟨rfl, le_rfl, .inl ⟨hl, rfl⟩⟩
  · rename_i slice more hl
    have hne : lines LF s.buffer ≠ [] := by simp [hl]
    have hpos : 0 < slice.length :=
      List.length_pos_iff.mpr (ne_nil_of_mem_lines (by rw [hl]; exact List.mem_cons_self))
    have hbuf : 0 < s.buffer.length := by
      refine List.length_pos_iff.mpr fun hnil => hne ?_
      rw [hnil]
      rfl
    obtain ⟨body, hbody, h⟩ := do_ok_iff.mp h
    have hdatas := appendChunked_datas hbody
    dsimp only at h
    by_cases htwo : slice.length = 2
    · rw [if_pos htwo] at h
      cases h
      refine ⟨hdatas, by simp only; omega, .inr ⟨hne, ?_⟩⟩
      simp only [List.length_drop]
      omega
    · rw [if_neg htwo] at h
      obtain ⟨length, -, h⟩ := do_ok_iff.mp h
      obtain ⟨part, hpart, h⟩ := do_ok_iff.mp h
      obtain ⟨part', hpart', h⟩ := do_ok_iff.mp h
      obtain ⟨body', hbody', h⟩ := do_ok_iff.mp h
      obtain ⟨buffer, hbuffer, h⟩ := do_ok_iff.mp h
      have hdatas' := appendChunked_datas hbody'
      obtain ⟨hlen, -, -⟩ := sliceTo_inv hpart'
      obtain ⟨-, hle, rfl⟩ := sliceFrom_inv hbuffer
      cases h
      refine ⟨?_, by simp only; omega, .inr ⟨hne, ?_⟩⟩
      · have hkeep : ∀ b : HttpBody, (if (decide
            (length > (seqLength - s.consumed - slice.length : ℤ)) : Bool) = true then
            { b with isRedingChunk := true, leftToRead := length } else b).datas = b.datas := by
          intro b
          split_ifs <;> rfl
        have hdatas'' := hdatas'.trans ((hkeep body).trans hdatas)
        simp only
        split_ifs <;> exact hdatas''
      · simp only [List.length_drop]
        omega

theorem chunkLoop_inv {seqLength turns : ℕ} {s t : ChunkLoop}
    (h : chunkLoop seqLength turns s = .ok t) :
    t.body.datas = s.body.datas ∧ s.consumed ≤ t.consumed := by
  induction turns generalizing s with
  | zero => cases h
  | succ turns ih =>
    unfold chunkLoop at h
    split_ifs at h with hdone
    · cases h
      exact ⟨rfl, le_rfl⟩
    · split at h
      · rename_i m hm
        obtain ⟨hd, hc, -⟩ := chunkTurn_inv hm
        obtain ⟨hd', hc'⟩ := ih h
        exact ⟨hd'.trans hd, hc.trans hc'⟩
      · cases h

theorem chunkLoop_stuck {seqLength : ℕ} {s : ChunkLoop} (hl : lines LF s.buffer = [])
    (hne : s.buffer ≠ []) (he : s.body.isRedingEnclosure = false) (turns : ℕ) :
    chunkLoop seqLength turns s = .error .diverges := by
  induction turns with
  | zero => rfl
  | succ turns ih =>
    have hturn : chunkTurn seqLength s = .ok s := by rw [chunkTurn, hl]
    rw [chunkLoop, if_neg (by simp [hne, he]), hturn]
    exact ih

/-- More turns than bytes decide how the loop ends. -/
theorem chunkLoop_enough {seqLength turns more : ℕ} {s : ChunkLoop}
    (h : s.buffer.length < turns) (hm : turns ≤ more) :
    chunkLoop seqLength more s = chunkLoop seqLength turns s := by
  induction turns generalizing s more with
  | zero => omega
  | succ turns ih =>
    obtain ⟨more, rfl⟩ : ∃ k, more = k + 1 := ⟨more - 1, by omega⟩
    by_cases hdone : s.buffer = [] ∨ s.body.isRedingEnclosure = true
    · rw [chunkLoop, if_pos hdone, chunkLoop, if_pos hdone]
    · cases hturn : chunkTurn seqLength s with
      | error fault => simp only [chunkLoop, if_neg hdone, hturn]
      | ok t =>
        simp only [chunkLoop, if_neg hdone, hturn]
        rcases (chunkTurn_inv hturn).2.2 with ⟨hl, rfl⟩ | ⟨-, hshort⟩
        · rw [not_or] at hdone
          have he : t.body.isRedingEnclosure = false := by simpa using hdone.2
          rw [chunkLoop_stuck hl hdone.1 he, chunkLoop_stuck hl hdone.1 he]
        · exact ih (by omega) (by omega)

theorem fillBodyChunked_inv {seq : List UInt8} {o o' : HttpObject} {n : ℤ}
    (h : o.fillBodyChunked seq = .ok (o', n)) :
    0 ≤ n ∧ o'.body.datas = o.body.datas ∧ o'.isReadingFields = o.isReadingFields ∧
      o'.isReadingBody = o.isReadingBody ∧
      (o'.isCompleted = o.isCompleted ∧ o'.isReadingBodyChunked = o.isReadingBodyChunked ∨
        2 ≤ n) := by
  unfold fillBodyChunked at h
  obtain ⟨start, hstart, h⟩ := do_ok_iff.mp h
  obtain ⟨done, hdone, h⟩ := do_ok_iff.mp h
  rw [mapError_ok_iff] at hstart h
  obtain ⟨hd, hc⟩ := chunkLoop_inv hdone
  have hs : start.body.datas = o.body.datas ∧ 0 ≤ start.consumed := by
    by_cases hchunk : o.body.isRedingChunk = true
    · rw [if_pos hchunk] at hstart
      obtain ⟨part, -, hstart⟩ := do_ok_iff.mp hstart
      obtain ⟨body, hbody, hstart⟩ := do_ok_iff.mp hstart
      obtain ⟨buffer, hbuffer, hstart⟩ := do_ok_iff.mp hstart
      cases hstart
      exact ⟨appendChunked_datas hbody, (sliceFrom_inv hbuffer).1⟩
    · rw [if_neg hchunk] at hstart
      cases hstart
      exact ⟨rfl, le_rfl⟩
  unfold enclose at h
  split_ifs at h with henc
  · obtain ⟨part, -, h⟩ := do_ok_iff.mp h
    obtain ⟨body, hbody, h⟩ := do_ok_iff.mp h
    obtain ⟨body', hend, h⟩ := do_ok_iff.mp h
    cases h
    have hdend : body'.datas = body.datas := by
      unfold HttpBody.endChunked at hend
      split at hend <;> cases hend
      rfl
    refine ⟨by omega, ?_, rfl, rfl, .inr (by omega)⟩
    exact hdend.trans ((appendChunked_datas hbody).trans (hd.trans hs.1))
  · cases h
    exact ⟨by omega, hd.trans hs.1, rfl, rfl, .inl ⟨rfl, rfl⟩⟩

end HttpObject

end DecodingProxy.Http
