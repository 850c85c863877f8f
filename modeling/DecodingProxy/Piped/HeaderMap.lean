import DecodingProxy.Piped.ObjectReaderHttp11Piped

/-!
# The map of a header block

`ParseLineRecursive` adds the lines on the way down and maps them on the way back, so the
map is filled from its end. When it returns, every line added so far is mapped.
-/

namespace DecodingProxy.Piped
open DecodingProxy.Runtime DecodingProxy.Lines DecodingProxy.Runs DecodingProxy.Http
open ConstantsForHttp

/-- Where the lines are when they begin at `offset`. -/
def ranges (offset : ℕ) : List (List UInt8) → List (ℕ × ℕ)
  | [] => []
  | l :: ls => (offset, l.length) :: ranges (offset + l.length) ls

theorem ranges_append (offset : ℕ) (as bs : List (List UInt8)) :
    ranges offset (as ++ bs) = ranges offset as ++ ranges (offset + as.flatten.length) bs := by
  induction as generalizing offset with
  | nil => rfl
  | cons a as ih =>
    simp only [List.cons_append, ranges, ih, List.flatten_cons, List.length_append, Nat.add_assoc]

theorem ranges_length (offset : ℕ) (ls : List (List UInt8)) :
    (ranges offset ls).length = ls.length := by
  induction ls generalizing offset with
  | nil => rfl
  | cons l ls ih => simp [ranges, ih]

theorem ranges_lines {datas : List UInt8} {offset : ℕ} {ls : List (List UInt8)}
    (h : ls.flatten <+: datas.drop offset) :
    (ranges offset ls).map (fun entry => (datas.drop entry.1).take entry.2) = ls := by
  induction ls generalizing offset with
  | nil => rfl
  | cons l ls ih =>
    rw [List.flatten_cons] at h
    obtain ⟨more, hmore⟩ := h
    have hrest : ls.flatten <+: datas.drop (offset + l.length) := by
      rw [← List.drop_drop, ← hmore, List.append_assoc, List.drop_left]
      exact List.prefix_append _ _
    rw [ranges, List.map_cons, ih hrest]
    simp only
    rw [← hmore, List.append_assoc, List.take_left]

/-- All of the lines are in the item and in its map. -/
structure Holds (ls : List (List UInt8)) (item : HttpBinaryMapped) : Prop where
  wellFormed : item.WellFormed
  memory : item.memory = ls.flatten
  fieldsCount : item.fieldsCount = ls.length
  fieldsCountMapped : item.fieldsCountMapped = ls.length
  maps : item.maps.take ls.length = ranges 0 ls

theorem Holds.length {ls : List (List UInt8)} {item : HttpBinaryMapped} (h : Holds ls item) :
    item.length = ls.flatten.length := by
  rw [← h.memory, h.wellFormed.memory_length]

theorem holds_start (type : MessageType) :
    Holds [] ({ type } : HttpBinaryMapped).fieldsStart :=
  ⟨HttpBinaryMapped.wellFormed_empty type, rfl, rfl, rfl, rfl⟩

theorem Holds.mappedLines {ls : List (List UInt8)} {item : HttpBinaryMapped} (h : Holds ls item) :
    item.mappedLines ls.length = ls := by
  unfold HttpBinaryMapped.mappedLines
  rw [h.maps]
  apply ranges_lines
  rw [List.drop_zero, ← h.memory]
  exact List.take_prefix _ _

theorem Holds.getBodyLength {ls : List (List UInt8)} {item : HttpBinaryMapped} (h : Holds ls item) :
    item.getBodyLength = bodyLengthOf item.type ls ls := by
  unfold HttpBinaryMapped.getBodyLength
  rw [h.fieldsCount, h.fieldsCountMapped, h.mappedLines]

/-- `bytes` are in the item as `added` lines, the first `mapped` of which are in the map. -/
structure Adding (bytes : List UInt8) (added mapped : ℕ) (item : HttpBinaryMapped) : Prop where
  wellFormed : item.WellFormed
  memory : item.memory = bytes
  fieldsCount : item.fieldsCount = added
  fieldsCountMapped : item.fieldsCountMapped = mapped
  le : mapped ≤ added
  room : mapped ≤ item.maps.length

/-- The outcome of a call: the lines `ls` were added and mapped, and the entries below `kept`
are as they were. -/
structure Mapped (bytes : List UInt8) (added kept : ℕ) (ls : List (List UInt8))
    (item item' : HttpBinaryMapped) : Prop where
  wellFormed : item'.WellFormed
  memory : item'.memory = bytes ++ ls.flatten
  fieldsCount : item'.fieldsCount = added + ls.length
  fieldsCountMapped : item'.fieldsCountMapped = kept + ls.length
  room : added + ls.length ≤ item'.maps.length
  keeps : item'.maps.take kept = item.maps.take kept
  maps : (item'.maps.drop added).take ls.length = ranges bytes.length ls
  type : item'.type = item.type

theorem Adding.length {bytes : List UInt8} {added mapped : ℕ} {item : HttpBinaryMapped}
    (h : Adding bytes added mapped item) : item.length = bytes.length := by
  rw [← h.memory, h.wellFormed.memory_length]

theorem allocateFieldsMap_mapped {bytes : List UInt8} {added mapped : ℕ} {item : HttpBinaryMapped}
    (h : Adding bytes added mapped item) :
    Mapped bytes added mapped [] item item.allocateFieldsMap := by
  have hroom := h.room
  have hcount := h.fieldsCount
  have hmapped := h.fieldsCountMapped
  have hle := h.le
  unfold HttpBinaryMapped.allocateFieldsMap
  split_ifs with hshort
  · refine ⟨⟨h.wellFormed.room, h.wellFormed.fits, h.wellFormed.returnable⟩, ?_, hcount, hmapped,
      ?_, ?_, ?_, rfl⟩
    · rw [List.flatten_nil, List.append_nil]
      exact h.memory
    · simp only [List.length_append, List.length_take, List.length_replicate, List.length_nil]
      omega
    · simp only [hmapped]
      rw [List.take_append_of_le_length (by simp [hroom]), List.take_take, Nat.min_self]
    · simp [ranges]
  · refine ⟨h.wellFormed, ?_, hcount, hmapped, ?_, rfl, ?_, rfl⟩
    · rw [List.flatten_nil, List.append_nil]
      exact h.memory
    · simp only [List.length_nil]
      omega
    · simp [ranges]

theorem addField_adding (pool : ArrayPool) {bytes : List UInt8} {added mapped : ℕ}
    {item : HttpBinaryMapped} (h : Adding bytes added mapped item) {l : List UInt8}
    (hfits : bytes.length + l.length ≤ arrayMaxLength) :
    ∃ item', item.addField pool l bytes.length = .ok item' ∧
      Adding (bytes ++ l) (added + 1) mapped item' ∧ item'.maps = item.maps ∧
      item'.type = item.type := by
  have hlength := h.length
  have hwell : ({ item with fieldsCount := item.fieldsCount + 1 } : HttpBinaryMapped).WellFormed :=
    ⟨h.wellFormed.room, h.wellFormed.fits, h.wellFormed.returnable⟩
  obtain ⟨item', hadd, hadded⟩ := HttpBinaryMapped.addBodyForSure_ok pool l hwell
    (by rw [hlength]; exact hfits)
  have hmaps := congrArg HttpBinaryMapped.maps hadded.rest
  have htype := congrArg HttpBinaryMapped.type hadded.rest
  have hcount := congrArg HttpBinaryMapped.fieldsCount hadded.rest
  have hmapped := congrArg HttpBinaryMapped.fieldsCountMapped hadded.rest
  dsimp only at hmaps htype hcount hmapped
  refine ⟨item', ?_, ⟨hadded.wellFormed, ?_, ?_, ?_, ?_, ?_⟩, hmaps, htype⟩
  · rw [← hlength]
    exact hadd
  · rw [hadded.memory]
    exact congrArg (· ++ l) h.memory
  · rw [hcount, h.fieldsCount]
  · rw [hmapped, h.fieldsCountMapped]
  · exact Nat.le_succ_of_le h.le
  · rw [hmaps]
    exact h.room

theorem addField_fits {pool : ArrayPool} {bytes : List UInt8} {added mapped : ℕ}
    {item item' : HttpBinaryMapped} (h : Adding bytes added mapped item) {l : List UInt8}
    (hadd : item.addField pool l bytes.length = .ok item') :
    bytes.length + l.length ≤ arrayMaxLength := by
  have hwell : ({ item with fieldsCount := item.fieldsCount + 1 } : HttpBinaryMapped).WellFormed :=
    ⟨h.wellFormed.room, h.wellFormed.fits, h.wellFormed.returnable⟩
  rw [← h.length] at hadd ⊢
  have hsure : ({ item with fieldsCount := item.fieldsCount + 1 } :
      HttpBinaryMapped).addBodyForSure pool l = .ok item' := hadd
  have hfits := HttpBinaryMapped.addBodyForSure_inv hwell hsure
  exact hfits

theorem mapField_mapped {bytes : List UInt8} {added mapped : ℕ} {ls : List (List UInt8)}
    {item item' item'' : HttpBinaryMapped} {l : List UInt8} (hle : mapped ≤ added)
    (hmaps : item'.maps = item.maps) (htype : item'.type = item.type)
    (h : Mapped (bytes ++ l) (added + 1) mapped ls item' item'') :
    ∃ item''', item''.mapField added bytes.length l.length = .ok item''' ∧
      Mapped bytes added mapped (l :: ls) item item''' := by
  have hroom := h.room
  unfold HttpBinaryMapped.mapField
  rw [if_pos (by omega)]
  refine ⟨_, rfl, ⟨h.wellFormed.room, h.wellFormed.fits, h.wellFormed.returnable⟩, ?_, ?_, ?_, ?_,
    ?_, ?_, h.type.trans htype⟩
  · rw [List.flatten_cons, ← List.append_assoc]
    exact h.memory
  · simp only [h.fieldsCount, List.length_cons]
    omega
  · simp only [h.fieldsCountMapped, List.length_cons]
    omega
  · simp only [List.length_set, List.length_cons]
    omega
  · simp only
    rw [List.take_set_of_le hle, h.keeps, hmaps]
  · simp only [List.length_cons]
    have hmap := h.maps
    rw [List.length_append] at hmap
    rw [List.drop_set, if_neg (Nat.lt_irrefl _), Nat.sub_self,
      List.drop_eq_getElem_cons (by omega), List.set_cons_zero, List.take_succ_cons, hmap, ranges]

theorem Mapped.fieldsEnd {bytes : List UInt8} {added kept : ℕ} {ls : List (List UInt8)}
    {item item' : HttpBinaryMapped} (h : Mapped bytes added kept ls item item') :
    Mapped bytes added kept ls item item'.fieldsEnd :=
  ⟨⟨h.wellFormed.room, h.wellFormed.fits, h.wellFormed.returnable⟩, h.memory, h.fieldsCount,
    h.fieldsCountMapped, h.room, h.keeps, h.maps, h.type⟩

/-- A line with content in front of lines that are mapped. -/
theorem parseLineRecursive_cons (pool : ArrayPool) {l : List UInt8} (hl : l.length ≠ LENGTH_LF)
    {bytes : List UInt8} {added mapped : ℕ} {item : HttpBinaryMapped}
    (h : Adding bytes added mapped item) (hfits : bytes.length + l.length ≤ arrayMaxLength)
    {rest ls : List (List UInt8)} {ended : Bool} {size : ℕ}
    (hrest : ∀ {item₁ : HttpBinaryMapped}, Adding (bytes ++ l) (added + 1) mapped item₁ →
      ∃ item', parseLineRecursive pool item₁ (bytes ++ l).length rest = .ok (ended, item', size) ∧
        Mapped (bytes ++ l) (added + 1) mapped ls item₁ item') :
    ∃ item', parseLineRecursive pool item bytes.length (l :: rest) =
        .ok (ended, item', l.length + size) ∧ Mapped bytes added mapped (l :: ls) item item' := by
  obtain ⟨item₁, hadd, hadding, hmaps, htype⟩ := addField_adding pool h hfits
  obtain ⟨item₂, hparse, hmapped⟩ := hrest hadding
  obtain ⟨item₃, hmap, hresult⟩ := mapField_mapped h.le hmaps htype hmapped
  refine ⟨item₃, ?_, hresult⟩
  rw [List.length_append] at hparse
  conv_lhs => unfold parseLineRecursive
  dsimp only
  rw [do_of_ok hadd, if_neg hl, do_of_ok hparse, h.fieldsCount, do_of_ok hmap]

theorem parseLineRecursive_part (pool : ArrayPool) {ls : List (List UInt8)}
    (content : ∀ l ∈ ls, l.length ≠ LENGTH_LF) {bytes : List UInt8} {added mapped : ℕ}
    {item : HttpBinaryMapped} (h : Adding bytes added mapped item)
    (hfits : bytes.length + ls.flatten.length ≤ arrayMaxLength) :
    ∃ item', parseLineRecursive pool item bytes.length ls =
        .ok (false, item', ls.flatten.length) ∧ Mapped bytes added mapped ls item item' := by
  induction ls generalizing bytes added item with
  | nil => exact ⟨_, rfl, allocateFieldsMap_mapped h⟩
  | cons l ls ih =>
    rw [List.flatten_cons, List.length_append] at hfits ⊢
    refine parseLineRecursive_cons pool (content l List.mem_cons_self) h (by omega) ?_
    intro item₁ hadding
    exact ih (fun m hm => content m (List.mem_cons_of_mem _ hm)) hadding
      (by rw [List.length_append]; omega)

/-- The first line of two bytes ends the block. -/
theorem parseLineRecursive_block (pool : ArrayPool) {ls : List (List UInt8)}
    (content : ∀ l ∈ ls, l.length ≠ LENGTH_LF) {last : List UInt8} (hlf : last.length = LENGTH_LF)
    (more : List (List UInt8)) {bytes : List UInt8} {added mapped : ℕ} {item : HttpBinaryMapped}
    (h : Adding bytes added mapped item)
    (hfits : bytes.length + (ls ++ [last]).flatten.length ≤ arrayMaxLength) :
    ∃ item', parseLineRecursive pool item bytes.length (ls ++ last :: more) =
        .ok (true, item', (ls ++ [last]).flatten.length) ∧
      Mapped bytes added mapped (ls ++ [last]) item item' := by
  induction ls generalizing bytes added item with
  | nil =>
    obtain ⟨item₁, hadd, hadding, hmaps, htype⟩ := addField_adding pool h (l := last)
      (by simpa using hfits)
    obtain ⟨item₂, hmap, hresult⟩ := mapField_mapped h.le hmaps htype
      (allocateFieldsMap_mapped hadding)
    rw [hlf] at hmap
    refine ⟨item₂.fieldsEnd, ?_, hresult.fieldsEnd⟩
    rw [List.nil_append, List.nil_append, List.flatten_singleton]
    unfold parseLineRecursive
    dsimp only
    rw [do_of_ok hadd, if_pos hlf, h.fieldsCount, do_of_ok hmap]
  | cons l ls ih =>
    rw [List.cons_append, List.flatten_cons, List.length_append] at hfits
    rw [List.cons_append, List.cons_append, List.flatten_cons, List.length_append]
    refine parseLineRecursive_cons pool (content l List.mem_cons_self) h (by omega) ?_
    intro item₁ hadding
    exact ih (fun m hm => content m (List.mem_cons_of_mem _ hm)) hadding
      (by rw [List.length_append]; omega)

theorem mapField_eq {index offset length : ℕ} {item item' : HttpBinaryMapped}
    (h : item.mapField index offset length = .ok item') :
    item' = { item with
      maps := item.maps.set index (offset, length)
      fieldsCountMapped := item.fieldsCountMapped + 1 } := by
  unfold HttpBinaryMapped.mapField at h
  split_ifs at h
  exact (Except.ok.inj h).symm

/-- At the end of the block the mark is at the end of the bytes. -/
theorem parseLineRecursive_marks {pool : ArrayPool} {ls : List (List UInt8)} {offset taken : ℕ}
    {item item' : HttpBinaryMapped}
    (h : parseLineRecursive pool item offset ls = .ok (true, item', taken)) :
    item'.indexEndFields = item'.length := by
  induction ls generalizing offset taken item item' with
  | nil => cases h
  | cons l ls ih =>
    unfold parseLineRecursive at h
    obtain ⟨item₁, -, h⟩ := do_ok_iff.mp h
    split_ifs at h
    · obtain ⟨item₂, -, h⟩ := do_ok_iff.mp h
      cases h
      rfl
    · obtain ⟨⟨isEnd, item₂, more⟩, hparse, h⟩ := do_ok_iff.mp h
      obtain ⟨item₃, hmap, h⟩ := do_ok_iff.mp h
      cases h
      have hmarks := ih hparse
      rw [mapField_eq hmap]
      exact hmarks

theorem addField_indexEndBody {pool : ArrayPool} {bytes : List UInt8} {added mapped : ℕ}
    {item item' : HttpBinaryMapped} (h : Adding bytes added mapped item) {l : List UInt8}
    (hadd : item.addField pool l bytes.length = .ok item') :
    item'.indexEndBody = item.indexEndBody := by
  have hwell : ({ item with fieldsCount := item.fieldsCount + 1 } : HttpBinaryMapped).WellFormed :=
    ⟨h.wellFormed.room, h.wellFormed.fits, h.wellFormed.returnable⟩
  rw [← h.length] at hadd
  have hsure : ({ item with fieldsCount := item.fieldsCount + 1 } :
      HttpBinaryMapped).addBodyForSure pool l = .ok item' := hadd
  exact (HttpBinaryMapped.addBodyForSure_added hwell hsure).indexEndBody

/-- What a call that returns has done: it took lines up to the first one of two bytes. -/
theorem parseLineRecursive_inv {pool : ArrayPool} {ls : List (List UInt8)} {bytes : List UInt8}
    {added mapped taken : ℕ} {isEnd : Bool} {item item' : HttpBinaryMapped}
    (h : Adding bytes added mapped item)
    (hparse : parseLineRecursive pool item bytes.length ls = .ok (isEnd, item', taken)) :
    ∃ content last more, ls = content ++ last ++ more ∧
      taken = (content ++ last).flatten.length ∧
      Mapped bytes added mapped (content ++ last) item item' ∧
      item'.indexEndBody = item.indexEndBody ∧ (∀ l ∈ content, l.length ≠ LENGTH_LF) ∧
      if isEnd then ∃ l, last = [l] ∧ l.length = LENGTH_LF else last = [] := by
  induction ls generalizing bytes added taken item item' with
  | nil =>
    cases hparse
    refine ⟨[], [], [], rfl, rfl, allocateFieldsMap_mapped h, ?_, by simp, rfl⟩
    unfold HttpBinaryMapped.allocateFieldsMap
    split_ifs <;> rfl
  | cons l ls ih =>
    unfold parseLineRecursive at hparse
    obtain ⟨item₁, hadd, hparse⟩ := do_ok_iff.mp hparse
    obtain ⟨item₂, hadd', hadding, hmaps, htype⟩ := addField_adding pool h (l := l)
      (addField_fits h hadd)
    cases hadd.symm.trans hadd'
    have hrest := addField_indexEndBody h hadd
    split_ifs at hparse with hlf
    · obtain ⟨item₂, hmap, hparse⟩ := do_ok_iff.mp hparse
      obtain ⟨item₃, hmap', hresult⟩ := mapField_mapped h.le hmaps htype
        (allocateFieldsMap_mapped hadding)
      rw [hlf, ← h.fieldsCount] at hmap'
      cases hmap.symm.trans hmap'
      cases hparse
      refine ⟨[], [l], ls, rfl, by simp, hresult.fieldsEnd, ?_, by simp, l, rfl, hlf⟩
      rw [HttpBinaryMapped.fieldsEnd, mapField_eq hmap, ← hrest]
      unfold HttpBinaryMapped.allocateFieldsMap
      split_ifs <;> rfl
    · obtain ⟨⟨isEnd', item₂, taken'⟩, hrec, hparse⟩ := do_ok_iff.mp hparse
      obtain ⟨item₃, hmap, hparse⟩ := do_ok_iff.mp hparse
      cases hparse
      rw [← List.length_append] at hrec
      obtain ⟨content, last, more, rfl, rfl, hmapped, hsame, hcontent, hlast⟩ := ih hadding hrec
      obtain ⟨item₄, hmap', hresult⟩ := mapField_mapped h.le hmaps htype hmapped
      rw [← h.fieldsCount] at hmap'
      cases hmap.symm.trans hmap'
      refine ⟨l :: content, last, more, rfl, by simp, hresult, ?_, ?_, hlast⟩
      · rw [mapField_eq hmap, ← hrest, ← hsame]
      · exact List.forall_mem_cons.mpr ⟨hlf, hcontent⟩

/-- A header block that was taken fits an array. -/
theorem parseLineRecursive_fits {pool : ArrayPool} {ls : List (List UInt8)}
    (content : ∀ l ∈ ls, l.length ≠ LENGTH_LF) {more : List (List UInt8)} {bytes : List UInt8}
    {added mapped : ℕ} {item : HttpBinaryMapped} (h : Adding bytes added mapped item)
    {result : Bool × HttpBinaryMapped × ℕ}
    (hparse : parseLineRecursive pool item bytes.length (ls ++ CRLF :: more) = .ok result) :
    bytes.length + (ls ++ [CRLF]).flatten.length ≤ arrayMaxLength := by
  induction ls generalizing bytes added item result with
  | nil =>
    rw [List.nil_append] at hparse
    unfold parseLineRecursive at hparse
    obtain ⟨item₁, hadd, -⟩ := do_ok_iff.mp hparse
    simpa using addField_fits h hadd
  | cons l ls ih =>
    rw [List.cons_append] at hparse
    unfold parseLineRecursive at hparse
    obtain ⟨item₁, hadd, hparse⟩ := do_ok_iff.mp hparse
    obtain ⟨item₂, hadd', hadding, -, -⟩ := addField_adding pool h (l := l)
      (addField_fits h hadd)
    cases hadd.symm.trans hadd'
    rw [if_neg (content l List.mem_cons_self)] at hparse
    obtain ⟨result', hrest, -⟩ := do_ok_iff.mp hparse
    rw [← List.length_append] at hrest
    have hfits := ih (fun m hm => content m (List.mem_cons_of_mem _ hm)) hadding hrest
    rw [List.cons_append, List.flatten_cons]
    simp only [List.length_append] at hfits ⊢
    omega

theorem Holds.adding {ls : List (List UInt8)} {item : HttpBinaryMapped} (h : Holds ls item) :
    Adding ls.flatten ls.length ls.length item := by
  refine ⟨h.wellFormed, h.memory, h.fieldsCount, h.fieldsCountMapped, le_rfl, ?_⟩
  have hlen := congrArg List.length h.maps
  rw [ranges_length, List.length_take] at hlen
  omega

theorem Holds.append {ls more : List (List UInt8)} {item item' : HttpBinaryMapped}
    (h : Holds ls item) (hmapped : Mapped ls.flatten ls.length ls.length more item item') :
    Holds (ls ++ more) item' := by
  refine ⟨hmapped.wellFormed, ?_, ?_, ?_, ?_⟩
  · rw [hmapped.memory, List.flatten_append]
  · rw [hmapped.fieldsCount, List.length_append]
  · rw [hmapped.fieldsCountMapped, List.length_append]
  · rw [List.length_append, List.take_add, hmapped.keeps, h.maps, hmapped.maps, ranges_append,
      Nat.zero_add]

/-! ### One call on what is in the pipe -/

/-- The last of the lines has two bytes, and no other one. -/
structure EndsShort (ls : List (List UInt8)) : Prop where
  isLine : ∀ l ∈ ls, IsLine LF l
  split : ∃ content last, ls = content ++ [last] ∧ last.length = LENGTH_LF ∧
    ∀ l ∈ content, l.length ≠ LENGTH_LF

theorem EndsShort.ne_nil {ls : List (List UInt8)} (h : EndsShort ls) : ls ≠ [] := by
  obtain ⟨content, last, rfl, -⟩ := h.split
  simp

theorem EndsShort.of_append {done todo : List (List UInt8)} (h : EndsShort (done ++ todo))
    (htodo : todo ≠ []) : EndsShort todo ∧ ∀ l ∈ done, l.length ≠ LENGTH_LF := by
  obtain ⟨content, last, hsplit, hlast, hcontent⟩ := h.split
  obtain ⟨left, last', rfl⟩ := (List.eq_nil_or_concat' todo).resolve_left htodo
  rw [← List.append_assoc] at hsplit
  obtain ⟨rfl, heq⟩ := List.append_inj' hsplit rfl
  obtain rfl := List.singleton_inj.mp heq
  refine ⟨⟨fun l hl => h.isLine l (List.mem_append_right _ hl), left, last', rfl, hlast, ?_⟩, ?_⟩
  · intro l hl
    exact hcontent l (List.mem_append_right _ hl)
  · intro l hl
    exact hcontent l (List.mem_append_left _ hl)

theorem EndsShort.flatten_pos {ls : List (List UInt8)} (h : EndsShort ls) :
    0 < ls.flatten.length := by
  obtain ⟨content, last, rfl, hlast, -⟩ := h.split
  have hlf : LENGTH_LF = 2 := rfl
  rw [List.flatten_append, List.length_append, List.flatten_singleton]
  omega

section Call
variable (pool : ArrayPool) {done todo : List (List UInt8)} {item : HttpBinaryMapped}
  {pending : List UInt8} (hitem : Holds done item) (htodo : EndsShort todo)
  (hfits : (done ++ todo).flatten.length ≤ arrayMaxLength)
include hitem htodo hfits

/-- The rest of the block is there: it is taken up to its last line. -/
theorem parseLineRecursive_whole {more : List UInt8} (hpending : pending = todo.flatten ++ more) :
    ∃ item', parseLineRecursive pool item done.flatten.length (lines LF pending) =
        .ok (true, item', todo.flatten.length) ∧
      Holds (done ++ todo) item' ∧ item'.type = item.type := by
  obtain ⟨content, last, rfl, hlast, hcontent⟩ := htodo.split
  have hoffer : lines LF pending = content ++ last :: lines LF more := by
    rw [hpending, lines_flatten htodo.isLine, List.append_assoc, List.singleton_append]
  rw [List.flatten_append, List.length_append] at hfits
  obtain ⟨item', hparse, hmapped⟩ := parseLineRecursive_block pool hcontent hlast
    (lines LF more) hitem.adding hfits
  rw [← hoffer] at hparse
  exact ⟨item', hparse, hitem.append hmapped, hmapped.type⟩

/-- A part of the block is there: the complete lines of it are taken. -/
theorem parseLineRecursive_some (hpending : pending <+: todo.flatten)
    (hshort : pending.length < todo.flatten.length) :
    ∃ item' new todo' part, todo = new ++ todo' ∧ EndsShort todo' ∧
      pending = new.flatten ++ part ∧ part.length < todo'.flatten.length ∧
      parseLineRecursive pool item done.flatten.length (lines LF pending) =
        .ok (false, item', new.flatten.length) ∧
      Holds (done ++ new) item' ∧ item'.type = item.type := by
  obtain ⟨new, todo', part, rfl, htodo', hsplit, hoffer, hpart⟩ :=
    lines_of_prefix htodo.isLine hpending hshort
  obtain ⟨hends, hcontent⟩ := htodo.of_append htodo'
  have hroom : done.flatten.length + new.flatten.length ≤ arrayMaxLength := by
    simp only [List.flatten_append, List.length_append] at hfits
    omega
  obtain ⟨item', hparse, hmapped⟩ := parseLineRecursive_part pool hcontent hitem.adding hroom
  rw [← hoffer] at hparse
  refine ⟨item', new, todo', part, rfl, hends, hsplit, hpart, ?_, hitem.append hmapped,
    hmapped.type⟩
  rw [hparse, hoffer]

end Call

end DecodingProxy.Piped
