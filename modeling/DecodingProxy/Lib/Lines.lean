import Mathlib.Data.List.Basic

/-!
# Lines of a stream that arrives in pieces

A line is a piece of the stream up to and with a separator. `lines` lists those that
have arrived. What has arrived of some lines is the first of them and a part of the next.
-/

namespace DecodingProxy.Lines

variable {α : Type*} [DecidableEq α] (sep : α)

/-- The complete lines. -/
def lines : List α → List (List α)
  | [] => []
  | a :: as =>
    if a = sep then [a] :: lines as
    else
      match lines as with
      | [] => []
      | l :: ls => (a :: l) :: ls

variable {sep}

/-- A line: no separator but the last element. -/
def IsLine (sep : α) (l : List α) : Prop := ∃ content, sep ∉ content ∧ l = content ++ [sep]

theorem lines_cons_sep (as : List α) : lines sep (sep :: as) = [sep] :: lines sep as := by
  simp [lines]

theorem lines_of_not_mem {as : List α} (h : sep ∉ as) : lines sep as = [] := by
  induction as with
  | nil => rfl
  | cons a as ih =>
    have ha : a ≠ sep := fun he => h (by simp [he])
    simp [lines, ha, ih fun hm => h (List.mem_cons_of_mem _ hm)]

theorem lines_append_line {content : List α} (h : sep ∉ content) (as : List α) :
    lines sep (content ++ sep :: as) = (content ++ [sep]) :: lines sep as := by
  induction content with
  | nil => exact lines_cons_sep as
  | cons a content ih =>
    have ha : a ≠ sep := fun he => h (by simp [he])
    simp [lines, ha, ih fun hm => h (List.mem_cons_of_mem _ hm)]

theorem lines_line {l : List α} (h : IsLine sep l) (as : List α) :
    lines sep (l ++ as) = l :: lines sep as := by
  obtain ⟨content, hc, rfl⟩ := h
  simpa using lines_append_line hc as

theorem lines_flatten {ls : List (List α)} (h : ∀ l ∈ ls, IsLine sep l) (as : List α) :
    lines sep (ls.flatten ++ as) = ls ++ lines sep as := by
  induction ls with
  | nil => rfl
  | cons l ls ih =>
    rw [List.flatten_cons, List.append_assoc, lines_line (h l List.mem_cons_self),
      ih fun m hm => h m (List.mem_cons_of_mem _ hm), List.cons_append]

/-- What has arrived is the complete lines, and a part of the next one. -/
theorem lines_append_part (as : List α) : ∃ part, as = (lines sep as).flatten ++ part := by
  induction as with
  | nil => exact ⟨[], rfl⟩
  | cons a as ih =>
    obtain ⟨part, hpart⟩ := ih
    unfold lines
    split_ifs with ha
    · exact ⟨part, by rw [List.flatten_cons, List.append_assoc, ← hpart, List.singleton_append]⟩
    · split
      · exact ⟨a :: as, rfl⟩
      · rename_i l ls hls
        refine ⟨part, ?_⟩
        rw [hls, List.flatten_cons, List.append_assoc] at hpart
        rw [List.flatten_cons, List.append_assoc, List.cons_append, ← hpart]

theorem isLine_of_mem_lines {l as : List α} (h : l ∈ lines sep as) : IsLine sep l := by
  induction as generalizing l with
  | nil => cases h
  | cons a as ih =>
    unfold lines at h
    split_ifs at h with ha
    · rcases List.mem_cons.mp h with rfl | hm
      · exact ⟨[], List.not_mem_nil, by rw [ha, List.nil_append]⟩
      · exact ih hm
    · split at h
      · cases h
      · rename_i m ms hms
        rcases List.mem_cons.mp h with rfl | hm
        · obtain ⟨content, hc, rfl⟩ := ih (l := m) (by rw [hms]; exact List.mem_cons_self)
          refine ⟨a :: content, ?_, rfl⟩
          rw [List.mem_cons, not_or]
          exact ⟨Ne.symm ha, hc⟩
        · exact ih (by rw [hms]; exact List.mem_cons_of_mem _ hm)

theorem ne_nil_of_mem_lines {l as : List α} (h : l ∈ lines sep as) : l ≠ [] := by
  obtain ⟨content, -, rfl⟩ := isLine_of_mem_lines h
  simp

omit [DecidableEq α] in
theorem IsLine.not_mem_of_prefix {l as : List α} (h : IsLine sep l) (hp : as <+: l)
    (hne : as ≠ l) : sep ∉ as := by
  obtain ⟨content, hc, rfl⟩ := h
  rcases List.prefix_concat_iff.mp hp with rfl | hp
  · exact absurd rfl hne
  · exact fun hm => hc (hp.subset hm)

theorem line_of_lines_ne_nil {l as future tail : List α} (h : IsLine sep l)
    (hstream : as ++ future = l ++ tail) (hne : lines sep as ≠ []) : ∃ more, as = l ++ more := by
  rcases Nat.lt_or_ge as.length l.length with hshort | hlong
  · have hp : as <+: l := List.prefix_of_prefix_length_le (hstream ▸ List.prefix_append _ _)
      (List.prefix_append _ _) (Nat.le_of_lt hshort)
    have hnot := h.not_mem_of_prefix hp fun he => by simp [he] at hshort
    exact absurd (lines_of_not_mem hnot) hne
  · obtain ⟨more, hmore⟩ := List.prefix_of_prefix_length_le (List.prefix_append l tail)
      (hstream ▸ List.prefix_append as future) hlong
    exact ⟨more, hmore.symm⟩

/-- What has arrived of some lines: those that are done, and a part of the next one. -/
theorem lines_of_prefix {ls : List (List α)} (h : ∀ l ∈ ls, IsLine sep l) {as : List α}
    (hp : as <+: ls.flatten) (hlt : as.length < ls.flatten.length) :
    ∃ done todo part, ls = done ++ todo ∧ todo ≠ [] ∧ as = done.flatten ++ part ∧
      lines sep as = done ∧ part.length < todo.flatten.length := by
  induction ls generalizing as with
  | nil => simp at hlt
  | cons l ls ih =>
    have hl := h l List.mem_cons_self
    rw [List.flatten_cons] at hp hlt
    rcases Nat.lt_or_ge as.length l.length with hshort | hlong
    · have hpl : as <+: l :=
        List.prefix_of_prefix_length_le hp (List.prefix_append _ _) (Nat.le_of_lt hshort)
      have hnot := hl.not_mem_of_prefix hpl fun he =>
        absurd hshort (by rw [he]; exact Nat.lt_irrefl _)
      refine ⟨[], l :: ls, as, rfl, by simp, rfl, lines_of_not_mem hnot, ?_⟩
      simpa using hlt
    · obtain ⟨as', rfl⟩ := List.prefix_of_prefix_length_le (List.prefix_append _ _) hp hlong
      have hp' : as' <+: ls.flatten := (List.prefix_append_right_inj l).mp hp
      simp only [List.length_append] at hlt
      obtain ⟨done, todo, part, rfl, htodo, rfl, hlines, hpart⟩ :=
        ih (fun m hm => h m (List.mem_cons_of_mem _ hm)) hp' (by omega)
      refine ⟨l :: done, todo, part, rfl, htodo, by simp, ?_, hpart⟩
      rw [lines_line hl, hlines]

end DecodingProxy.Lines
