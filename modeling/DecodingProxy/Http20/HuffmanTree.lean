import DecodingProxy.Http20.HuffmanDecoder

/-!
# The tree of `HuffmanDecoder`

What a tree holds is said of its root alone: the words, and below a child what is left of them
behind its byte. Putting in a word changes this by the word and nothing else, as long as none of
the words begins another one.
-/

namespace DecodingProxy.Http20
open DecodingProxy.Bits DecodingProxy.PrefixCodes DecodingProxy.Runs HuffmanCoding

/-- The words that symbols are written with. -/
abbrev Words := ℕ → List Bool → Prop

namespace Words

/-- What is left of the words that go on behind a byte. -/
def behind (C : Words) (c : UInt8) : Words := fun s r => r ≠ [] ∧ C s (byteBits c ++ r)

def add (C : Words) (symbol : ℕ) (word : List Bool) : Words :=
  fun s r => C s r ∨ s = symbol ∧ r = word

structure Unambiguous (C : Words) : Prop where
  nonempty : ∀ s r, C s r → r ≠ []
  prefixFree : ∀ s r t q, C s r → C t q → r <+: q → s = t ∧ r = q

variable {C : Words} {s symbol : ℕ} {r word : List Bool} {c : UInt8}

theorem Unambiguous.eq_of_prefix (h : C.Unambiguous) {t : ℕ} {q l : List Bool} (hr : C s r)
    (hq : C t q) (hrl : r <+: l) (hql : q <+: l) : s = t ∧ r = q := by
  rcases List.prefix_or_prefix_of_prefix hrl hql with hpre | hpre
  · exact h.prefixFree s r t q hr hq hpre
  · obtain ⟨rfl, rfl⟩ := h.prefixFree t q s r hq hr hpre
    exact ⟨rfl, rfl⟩

theorem Unambiguous.behind (h : C.Unambiguous) (c : UInt8) : (C.behind c).Unambiguous where
  nonempty s r hr := hr.1
  prefixFree s r t q hr hq hpre := by
    obtain ⟨hst, heq⟩ :=
      h.prefixFree _ _ _ _ hr.2 hq.2 ((List.prefix_append_right_inj (byteBits c)).mpr hpre)
    exact ⟨hst, List.append_cancel_left heq⟩

theorem behind_add (hword : word ≠ []) :
    (C.add symbol (byteBits c ++ word)).behind c = (C.behind c).add symbol word := by
  funext s r
  apply propext
  constructor
  · rintro ⟨hr, hC | ⟨rfl, heq⟩⟩
    · exact .inl ⟨hr, hC⟩
    · exact .inr ⟨rfl, List.append_cancel_left heq⟩
  · rintro (⟨hr, hC⟩ | ⟨rfl, rfl⟩)
    · exact ⟨hr, .inl hC⟩
    · exact ⟨hword, .inr ⟨rfl, rfl⟩⟩

/-- Below the other bytes nothing changes. -/
theorem behind_add_other (hword : ∀ r, r ≠ [] → byteBits c ++ r ≠ word) :
    (C.add symbol word).behind c = C.behind c := by
  funext s r
  apply propext
  constructor
  · rintro ⟨hr, hC | ⟨rfl, heq⟩⟩
    · exact ⟨hr, hC⟩
    · exact absurd heq (hword r hr)
  · rintro ⟨hr, hC⟩
    exact ⟨hr, .inl hC⟩

end Words

inductive Holds : Words → Node → Prop
  | internal {C : Words} {children : UInt8 → Option Node}
      (missing : ∀ c, children c = none → ∀ s r, C s r →
        ¬ r <+: byteBits c ∧ ¬ byteBits c <+: r)
      (terminal : ∀ c s n, children c = some (.terminal s n) →
        n ≤ 8 ∧ C s ((byteBits c).take n))
      (occupied : ∀ c kids, children c = some (.internal kids) → ∃ s r, C.behind c s r)
      (inner : ∀ c kids, children c = some (.internal kids) →
        Holds (C.behind c) (.internal kids)) :
      Holds C (.internal children)

theorem holds_new {C : Words} (h : ∀ s r, ¬ C s r) : Holds C .new :=
  .internal (fun _ _ s r hC => absurd hC (h s r)) (fun _ _ _ hc => by cases hc)
    (fun _ _ hc => by cases hc) (fun _ _ hc => by cases hc)

namespace HuffmanDecoder

theorem bits_first_byte {length : ℕ} (code : ℕ) (h : 8 < length) :
    bits length code.testBit =
      byteBits (UInt8.ofNat (code >>> (length - 8))) ++ bits (length - 8) code.testBit := by
  have hlength : length = 8 + (length - 8) := by omega
  conv_lhs => rw [hlength, bits_add]
  rw [byteBits_ofNat]
  congr 1
  exact bits_congr fun i _ => by rw [Nat.testBit_shiftRight, Nat.add_comm]

/-- The children from `start` on are the bytes that begin with the code. -/
theorem range_iff {code length : ℕ} (h : length ≤ 8) (j : UInt8) :
    ((UInt8.ofNat (code <<< (8 - length))).toNat ≤ j.toNat ∧
      j.toNat < (UInt8.ofNat (code <<< (8 - length))).toNat + 1 <<< (8 - length)) ↔
      bits length code.testBit <+: byteBits j := by
  have hstart : (UInt8.ofNat (code <<< (8 - length))).toNat =
      code % 2 ^ length * 2 ^ (8 - length) := by
    rw [UInt8.toNat_ofNat', Nat.shiftLeft_eq, ← Nat.mul_mod_mul_right, ← pow_add,
      Nat.add_sub_cancel' h]
  have hcode : bits length code.testBit = bits length (code % 2 ^ length).testBit :=
    bits_congr fun i hi => by simp [Nat.testBit_mod_two_pow, hi]
  rw [hcode, byteBits, bits_prefix_iff h (Nat.mod_lt _ (Nat.two_pow_pos _)) j.toNat_lt, hstart,
    Nat.one_shiftLeft, Nat.add_mul, one_mul]

theorem insert_short {children : UInt8 → Option Node} {C : Words} {symbol code length : ℕ}
    (hlen : length ≤ 8) (h : Holds C (.internal children))
    (hC : (C.add symbol (bits length code.testBit)).Unambiguous) :
    ∃ node, insert (.internal children) symbol code length = .ok node ∧
      Holds (C.add symbol (bits length code.testBit)) node := by
  rw [insert, if_neg (Nat.not_lt.mpr hlen)]
  refine ⟨_, rfl, ?_⟩
  obtain ⟨missing, terminal, occupied, inner⟩ := h
  -- the word is too short to go on behind a byte
  have hbehind : ∀ c, (C.add symbol (bits length code.testBit)).behind c = C.behind c := by
    refine fun c => Words.behind_add_other fun r hr heq => ?_
    have := congrArg List.length heq
    rw [List.length_append, length_byteBits, length_bits] at this
    have := List.length_pos_iff.mpr hr
    omega
  constructor
  · intro c hc s r hr
    simp only [range_iff hlen] at hc
    split at hc
    · cases hc
    · next hnot =>
      rcases hr with hr | ⟨rfl, rfl⟩
      · exact missing c hc s r hr
      · refine ⟨hnot, fun hpre => hnot ?_⟩
        have heq := hpre.eq_of_length_le (by simpa using hlen)
        rw [heq]
  · intro c s n hc
    simp only [range_iff hlen] at hc
    split at hc
    · next hpre =>
      cases hc
      refine ⟨hlen, .inr ⟨rfl, ?_⟩⟩
      have := List.prefix_iff_eq_take.mp hpre
      rw [length_bits] at this
      exact this.symm
    · obtain ⟨hn, hr⟩ := terminal c s n hc
      exact ⟨hn, .inl hr⟩
  · intro c kids hc
    simp only [range_iff hlen] at hc
    split at hc
    · cases hc
    · rw [hbehind]
      exact occupied c kids hc
  · intro c kids hc
    simp only [range_iff hlen] at hc
    split at hc
    · cases hc
    · rw [hbehind]
      exact inner c kids hc

/-- The child for the first byte of a long word, which is made where there was none, holds what
is behind this byte. -/
theorem holds_first_child {children : UInt8 → Option Node} {C : Words} {symbol : ℕ}
    {c : UInt8} {word : List Bool} (h : Holds C (.internal children))
    (hC : (C.add symbol (byteBits c ++ word)).Unambiguous) (hword : word ≠ []) :
    Holds (C.behind c) ((children c).getD .new) := by
  obtain ⟨missing, terminal, occupied, inner⟩ := h
  cases hc : children c with
  | none =>
    exact holds_new fun s r hr => (missing c hc s _ hr.2).2 (List.prefix_append _ _)
  | some child =>
    cases child with
    | internal kids => exact inner c kids hc
    | terminal s n =>
      -- a word that ends in the byte would begin the new one
      exfalso
      obtain ⟨-, hr⟩ := terminal c s n hc
      obtain ⟨-, heq⟩ := hC.prefixFree _ _ _ _ (.inl hr) (.inr ⟨rfl, rfl⟩)
        ((List.take_prefix n _).trans (List.prefix_append _ _))
      have hlen := congrArg List.length heq
      rw [List.length_take, List.length_append] at hlen
      have := List.length_pos_iff.mpr hword
      omega

theorem insert_long {children : UInt8 → Option Node} {C : Words} {symbol : ℕ} {i : UInt8}
    {word : List Bool} {child : Node} (h : Holds C (.internal children)) (hword : word ≠ [])
    (hchild : Holds ((C.behind i).add symbol word) child) :
    Holds (C.add symbol (byteBits i ++ word))
      (.internal fun j => if j = i then some child else children j) := by
  obtain ⟨missing, terminal, occupied, inner⟩ := h
  have hother : ∀ c, c ≠ i → (C.add symbol (byteBits i ++ word)).behind c = C.behind c := by
    refine fun c hc => Words.behind_add_other fun r _ heq => hc ?_
    exact byteBits_injective (List.append_inj_left heq (by simp))
  have hkids : ∃ kids, child = .internal kids := by
    cases hchild
    exact ⟨_, rfl⟩
  obtain ⟨kids', rfl⟩ := hkids
  constructor
  · intro c hc s r hr
    by_cases hci : c = i
    · rw [if_pos hci] at hc
      cases hc
    · rw [if_neg hci] at hc
      rcases hr with hr | ⟨rfl, rfl⟩
      · exact missing c hc s r hr
      · constructor
        · intro hpre
          have hlen := hpre.length_le
          rw [List.length_append, length_byteBits, length_byteBits] at hlen
          have := List.length_pos_iff.mpr hword
          omega
        · intro hpre
          have heq := List.prefix_of_prefix_length_le hpre (List.prefix_append _ _) (by simp)
          exact hci (byteBits_injective (heq.eq_of_length (by simp)))
  · intro c s n hc
    by_cases hci : c = i
    · rw [if_pos hci] at hc
      cases hc
    · rw [if_neg hci] at hc
      obtain ⟨hn, hr⟩ := terminal c s n hc
      exact ⟨hn, .inl hr⟩
  · intro c kids hc
    by_cases hci : c = i
    · subst hci
      exact ⟨symbol, word, hword, .inr ⟨rfl, rfl⟩⟩
    · rw [if_neg hci] at hc
      rw [hother c hci]
      exact occupied c kids hc
  · intro c kids hc
    by_cases hci : c = i
    · subst hci
      rw [if_pos rfl] at hc
      cases hc
      rw [Words.behind_add hword]
      exact hchild
    · rw [if_neg hci] at hc
      rw [hother c hci]
      exact inner c kids hc

/-- A word that neither begins another one nor is begun by one is put in, and nothing else. -/
theorem insert_holds {node : Node} {C : Words} {symbol code length : ℕ} (h : Holds C node)
    (hC : (C.add symbol (bits length code.testBit)).Unambiguous) :
    ∃ node', insert node symbol code length = .ok node' ∧
      Holds (C.add symbol (bits length code.testBit)) node' := by
  induction hn : length using Nat.strong_induction_on generalizing node C length with
  | _ n ih =>
    subst hn
    have hnode : ∃ children, node = .internal children := by
      cases h
      exact ⟨_, rfl⟩
    obtain ⟨children, rfl⟩ := hnode
    rcases Nat.lt_or_ge 8 length with hlen | hlen
    · have hbyte := bits_first_byte code hlen
      have hword : bits (length - 8) code.testBit ≠ [] := by
        intro hnil
        have := congrArg List.length hnil
        rw [length_bits, List.length_nil] at this
        omega
      rw [hbyte] at hC ⊢
      obtain ⟨child, hinsert, hchild⟩ := ih (length - 8) (by omega)
        (holds_first_child h hC hword) (Words.behind_add hword ▸ hC.behind _) rfl
      refine ⟨_, ?_, insert_long h hword hchild⟩
      rw [insert, if_pos hlen]
      simp only [hinsert, bind, Except.bind]
    · exact insert_short hlen h hC

/-- The words of a table and the ones there were before. -/
def withTable (C : Words) (table : List ((ℕ × ℕ) × ℕ)) : Words :=
  fun s r => C s r ∨ ∃ word, (word, s) ∈ table ∧ r = bits word.2 word.1.testBit

theorem withTable_cons (C : Words) (word : ℕ × ℕ) (symbol : ℕ) (table : List ((ℕ × ℕ) × ℕ)) :
    withTable C ((word, symbol) :: table) =
      withTable (C.add symbol (bits word.2 word.1.testBit)) table := by
  funext s r
  apply propext
  constructor
  · rintro (hC | ⟨w, hmem, rfl⟩)
    · exact .inl (.inl hC)
    · rcases List.mem_cons.mp hmem with heq | hmem
      · cases heq
        exact .inl (.inr ⟨rfl, rfl⟩)
      · exact .inr ⟨w, hmem, rfl⟩
  · rintro ((hC | ⟨rfl, rfl⟩) | ⟨w, hmem, rfl⟩)
    · exact .inl hC
    · exact .inr ⟨word, List.mem_cons_self, rfl⟩
    · exact .inr ⟨w, List.mem_cons_of_mem _ hmem, rfl⟩

theorem Words.Unambiguous.of_withTable {C : Words} {table : List ((ℕ × ℕ) × ℕ)}
    (h : (withTable C table).Unambiguous) : C.Unambiguous where
  nonempty s r hr := h.nonempty s r (.inl hr)
  prefixFree s r t q hr hq := h.prefixFree s r t q (.inl hr) (.inl hq)

theorem foldlM_insert_holds {C : Words} {node : Node} (table : List ((ℕ × ℕ) × ℕ))
    (h : Holds C node) (hC : (withTable C table).Unambiguous) :
    ∃ root, table.foldlM (fun node ((code, length), i) => insert node i code length) node =
      .ok root ∧ Holds (withTable C table) root := by
  induction table generalizing C node with
  | nil =>
    refine ⟨node, rfl, ?_⟩
    have heq : withTable C [] = C := by
      funext s r
      simp [withTable]
    rwa [heq]
  | cons entry table ih =>
    obtain ⟨⟨code, length⟩, symbol⟩ := entry
    rw [withTable_cons] at hC ⊢
    obtain ⟨node', hinsert, hnode'⟩ := insert_holds h (Words.Unambiguous.of_withTable hC)
    obtain ⟨root, hroot, hholds⟩ := ih hnode' hC
    refine ⟨root, ?_, hholds⟩
    simp only [List.foldlM_cons, bind, Except.bind] at hinsert ⊢
    rw [hinsert]
    exact hroot

end HuffmanDecoder

namespace HuffmanCoding

/-- What is left of the words that go on behind `p`. -/
def restOf (p : List Bool) : Words :=
  fun s r => r ≠ [] ∧ ∃ t : Fin 257, t.val = s ∧ code.code t = p ++ r

variable {p : List Bool} {c : UInt8} {s : ℕ} {r : List Bool}

theorem behind_restOf (p : List Bool) (c : UInt8) :
    (restOf p).behind c = restOf (p ++ byteBits c) := by
  funext s r
  apply propext
  constructor
  · rintro ⟨hr, -, t, hs, ht⟩
    exact ⟨hr, t, hs, by rw [ht, List.append_assoc]⟩
  · rintro ⟨hr, t, hs, ht⟩
    exact ⟨hr, by simp [hr], t, hs, by rw [ht, List.append_assoc]⟩

theorem restOf_unambiguous (p : List Bool) : (restOf p).Unambiguous where
  nonempty s r hr := hr.1
  prefixFree := by
    rintro s r t q ⟨-, s', rfl, hr⟩ ⟨-, t', rfl, hq⟩ hpre
    have heq : s' = t' := by
      refine code.prefixFree s' t' ?_
      rw [hr, hq, List.prefix_append_right_inj]
      exact hpre
    subst heq
    exact ⟨rfl, List.append_cancel_left (hr.symm.trans hq)⟩

theorem withTable_words :
    HuffmanDecoder.withTable (fun _ _ => False) words.zipIdx = restOf [] := by
  funext s r
  apply propext
  constructor
  · rintro (hfalse | ⟨w, hmem, rfl⟩)
    · exact hfalse.elim
    · obtain ⟨hs, hw⟩ := List.getElem?_eq_some_iff.mp (List.mem_zipIdx_iff_getElem?.mp hmem)
      rw [length_words] at hs
      have hcode : code.code ⟨s, hs⟩ = bits w.2 w.1.testBit := by
        rw [code_apply, word]
        simp only [List.get_eq_getElem, Fin.val_cast, hw]
      exact ⟨hcode ▸ code.nonempty _, ⟨s, hs⟩, rfl, hcode⟩
  · rintro ⟨-, t, rfl, ht⟩
    refine .inr ⟨word t, ?_, ht.symm⟩
    have hlt : t.val < words.length := t.isLt.trans_eq length_words.symm
    rw [List.mem_zipIdx_iff_getElem?, List.getElem?_eq_getElem hlt, word]
    simp only [List.get_eq_getElem, Fin.val_cast]

/-- The decoder is built, and holds the code. -/
theorem root_holds : ∃ root, HuffmanDecoder.new HUFFMAN_CODES HUFFMAN_CODE_LENGTHS = .ok root ∧
    Holds (restOf []) root := by
  have hlength : HUFFMAN_CODES.length = 257 ∧ HUFFMAN_CODE_LENGTHS.length = 257 := by
    decide +kernel
  obtain ⟨root, hroot, hholds⟩ := HuffmanDecoder.foldlM_insert_holds words.zipIdx
    (holds_new fun _ _ h => h) (withTable_words ▸ restOf_unambiguous [])
  rw [withTable_words] at hholds
  refine ⟨root, ?_, hholds⟩
  rw [HuffmanDecoder.new, if_neg (by rw [hlength.1, hlength.2]; simp)]
  exact hroot

/-- A node a decoder comes to: there are words that go on behind `p`, and below are their ends. -/
structure Reached (p : List Bool) (node : Node) : Prop where
  holds : Holds (restOf p) node
  occupied : ∃ s r, restOf p s r

theorem reached_root {root : Node} (h : Holds (restOf []) root) : Reached [] root :=
  ⟨h, eos.val, code.code eos, code.nonempty eos, eos, rfl, rfl⟩

/-- No word ends where others go on. -/
theorem Reached.not_prefix {node : Node} (h : Reached p node) (s : Fin 257) :
    ¬ code.code s <+: p := by
  obtain ⟨-, r, hr, t, -, ht⟩ := h.occupied
  intro hpre
  obtain rfl := code.prefixFree s t (hpre.trans ⟨r, ht.symm⟩)
  have hlen := hpre.length_le
  rw [ht, List.length_append] at hlen
  have := List.length_pos_iff.mpr hr
  omega

/-- Below such a node no child is missing. -/
theorem Reached.child {node : Node} (h : Reached p node) (c : UInt8) :
    (∃ (s : Fin 257) (n : ℕ), node.child c = .ok (.terminal s n) ∧ 0 < n ∧ n ≤ 8 ∧
      code.code s = p ++ (byteBits c).take n) ∨
    ∃ kids, node.child c = .ok (.internal kids) ∧ Reached (p ++ byteBits c) (.internal kids) := by
  have hnode : ∃ children, node = .internal children := by
    cases h.holds
    exact ⟨_, rfl⟩
  obtain ⟨children, rfl⟩ := hnode
  obtain ⟨missing, terminal, occupied, inner⟩ := h.holds
  cases hc : children c with
  | none =>
    -- a word would begin what was read with this byte, or go on behind it
    exfalso
    have hnone : ∀ s r, code.code s = p ++ r →
        ¬ r <+: byteBits c ∧ ¬ byteBits c <+: r := by
      intro s r hs
      have hr : r ≠ [] := by
        rintro rfl
        exact h.not_prefix s (by rw [hs, List.append_nil])
      exact missing c hc s r ⟨hr, s, rfl, hs⟩
    rcases code_complete (p ++ byteBits c) with ⟨s, hs⟩ | ⟨s, ⟨r, hr⟩⟩
    · rcases List.prefix_or_prefix_of_prefix hs (List.prefix_append p _) with hpre | ⟨r, hr⟩
      · exact h.not_prefix s hpre
      · rw [← hr, List.prefix_append_right_inj] at hs
        exact (hnone s r hr.symm).1 hs
    · rw [List.append_assoc] at hr
      exact (hnone s _ hr.symm).2 (List.prefix_append _ _)
  | some next =>
    cases next with
    | terminal s n =>
      obtain ⟨hn, hne, t, rfl, ht⟩ := terminal c s n hc
      refine .inl ⟨t, n, by simp only [Node.child, hc], ?_, hn, ht⟩
      refine Nat.pos_of_ne_zero ?_
      rintro rfl
      exact hne List.take_zero
    | internal kids =>
      refine .inr ⟨kids, by simp only [Node.child, hc], ?_, ?_⟩
      · rw [← behind_restOf]
        exact inner c kids hc
      · rw [← behind_restOf]
        exact occupied c kids hc

end HuffmanCoding

end DecodingProxy.Http20
