import DecodingProxy.Runtime.Dictionary
import DecodingProxy.Runtime.Utf8RoundTrip

/-!
# `HeaderField20`, `StaticTable` and `DynamicTable`

A name is looked up in a map from decoded names to the lowest index. From there the entries are
compared one by one as long as they have this name, which finds the field if the entries of a name
stand together.
-/

namespace DecodingProxy.Http20
open DecodingProxy.Runtime

structure HeaderField20 where
  name : List UInt8
  value : List UInt8
  deriving DecidableEq, Repr

namespace HeaderField20

/-- The constructor from strings. -/
def ofStrings (name value : String) : HeaderField20 where
  name := Utf8.getBytes (ascii name)
  value := Utf8.getBytes (ascii value)

/-- `CompareTo(byte[], byte[])`. -/
def compareBytes : List UInt8 → List UInt8 → ℤ
  | b1 :: s1, b2 :: s2 =>
    if b1 ≠ b2 then (b1.toNat : ℤ) - b2.toNat else compareBytes s1 s2
  | s1, s2 => (s1.length : ℤ) - s2.length

def compareTo (f anotherHeaderField : HeaderField20) : ℤ :=
  let ret := compareBytes f.name anotherHeaderField.name
  if ret = 0 then compareBytes f.value anotherHeaderField.value else ret

/-- `Equals(byte[], byte[])`, which looks at all bytes. -/
def equalsBytes (s1 s2 : List UInt8) : Bool :=
  if s1.length ≠ s2.length then false
  else (s1.zip s2).foldl (fun c (b1, b2) => c ||| (b1 ^^^ b2)) 0 = 0

/-- `Equals(object)` of two fields, to a depth of calls. Its `other == this` is not the comparison of
references: it is the operator of the class, which calls `Equals` again. -/
def equals : ℕ → HeaderField20 → HeaderField20 → Except Halt Bool
  | 0, _, _ => .error .diverges
  | depth + 1, f, other => do
    let same ← equals depth other f
    if same then .ok true
    else .ok (equalsBytes f.name other.name && equalsBytes f.value other.value)

/-- So comparing two fields with `==` never ends. -/
theorem equals_diverges (depth : ℕ) (f g : HeaderField20) : equals depth f g = .error .diverges := by
  induction depth generalizing f g with
  | zero => rfl
  | succ depth ih =>
    rw [equals, ih g f]
    rfl

end HeaderField20

namespace StaticTable

def STATIC_TABLE : List HeaderField20 := List.map (fun entry => .ofStrings entry.1 entry.2) [
  (":authority", ""), (":method", "GET"), (":method", "POST"), (":path", "/"),
  (":path", "/index.html"), (":scheme", "http"), (":scheme", "https"), (":status", "200"),
  (":status", "204"), (":status", "206"), (":status", "304"), (":status", "400"),
  (":status", "404"), (":status", "500"), ("accept-charset", ""),
  ("accept-encoding", "gzip, deflate"), ("accept-language", ""), ("accept-ranges", ""),
  ("accept", ""), ("access-control-allow-origin", ""), ("age", ""), ("allow", ""),
  ("authorization", ""), ("cache-control", ""), ("content-disposition", ""),
  ("content-encoding", ""), ("content-language", ""), ("content-length", ""),
  ("content-location", ""), ("content-range", ""), ("content-type", ""), ("cookie", ""),
  ("date", ""), ("etag", ""), ("expect", ""), ("expires", ""), ("from", ""), ("host", ""),
  ("if-match", ""), ("if-modified-since", ""), ("if-none-match", ""), ("if-range", ""),
  ("if-unmodified-since", ""), ("last-modified", ""), ("link", ""), ("location", ""),
  ("max-forwards", ""), ("proxy-authenticate", ""), ("proxy-authorization", ""), ("range", ""),
  ("referer", ""), ("refresh", ""), ("retry-after", ""), ("server", ""), ("set-cookie", ""),
  ("strict-transport-security", ""), ("transfer-encoding", ""), ("user-agent", ""), ("vary", ""),
  ("via", ""), ("www-authenticate", "")]

/-- `CreateMap`, from the last entry to the first one. -/
def STATIC_INDEX_BY_NAME : Dictionary Str ℕ :=
  STATIC_TABLE.zipIdx.reverse.foldl
    (fun ret (entry, i) => AList.insert (Utf8.getString entry.name) (i + 1) ret) ∅

def getEntry (index : ℤ) : Except Fault HeaderField20 :=
  if index < 1 then .error (.raised .argumentOutOfRange)
  else
    match STATIC_TABLE[(index - 1).toNat]? with
    | none => .error (.raised .argumentOutOfRange)
    | some entry => .ok entry

/-- `GetIndex(name)`. -/
def getIndexOfName (name : List UInt8) : ℤ :=
  match AList.lookup (Utf8.getString name) STATIC_INDEX_BY_NAME with
  | none => -1
  | some index => index

/-- The loop over the entries from `index` on. -/
def scan (name value : List UInt8) : List HeaderField20 → ℤ → ℤ
  | [], _ => -1
  | entry :: rest, index =>
    if !HeaderField20.equalsBytes name entry.name then -1
    else if HeaderField20.equalsBytes value entry.value then index
    else scan name value rest (index + 1)

/-- `GetIndex(name, value)`. -/
def getIndex (name value : List UInt8) : ℤ :=
  let index := getIndexOfName name
  if index = -1 then -1 else scan name value (STATIC_TABLE.drop (index - 1).toNat) index

end StaticTable

namespace DynamicTable

def LENGTH_STATIC_TABLE : ℤ := 62

/-- `DynamicTable.GetEntry`. The index into the own fields is the one of the whole table. -/
def getEntry (headerFields : List HeaderField20) (index : ℤ) : Except Fault HeaderField20 :=
  if index < LENGTH_STATIC_TABLE then StaticTable.getEntry index
  else
    match headerFields[index.toNat]? with
    | none => .error (.raised .argumentOutOfRange)
    | some entry => .ok entry

end DynamicTable

namespace HeaderField20

theorem foldl_or_eq_zero (pairs : List (UInt8 × UInt8)) (c : UInt8) :
    pairs.foldl (fun c (b1, b2) => c ||| (b1 ^^^ b2)) c = 0 ↔
      c = 0 ∧ ∀ p ∈ pairs, p.1 = p.2 := by
  induction pairs generalizing c with
  | nil => simp
  | cons p pairs ih =>
    rw [List.foldl_cons, ih, UInt8.or_eq_zero_iff, UInt8.xor_eq_zero_iff]
    simp only [List.mem_cons, forall_eq_or_imp, and_assoc]

/-- The comparison without an early exit is equality. -/
theorem equalsBytes_iff (s1 s2 : List UInt8) : equalsBytes s1 s2 = true ↔ s1 = s2 := by
  unfold equalsBytes
  by_cases hlen : s1.length = s2.length
  · rw [if_neg (not_not.mpr hlen), decide_eq_true_iff, foldl_or_eq_zero]
    simp only [true_and]
    constructor
    · intro h
      refine List.ext_getElem hlen fun i h1 h2 => ?_
      exact h (s1[i], s2[i]) (List.mem_iff_getElem.mpr ⟨i, by simp [h1, h2], by simp⟩)
    · rintro rfl p hp
      obtain ⟨i, hi, rfl⟩ := List.mem_iff_getElem.mp hp
      simp
  · rw [if_pos hlen]
    simp only [Bool.false_eq_true, false_iff]
    rintro rfl
    exact hlen rfl

theorem compareBytes_nil_left (s : List UInt8) : compareBytes [] s = -(s.length : ℤ) := by
  cases s <;> simp [compareBytes]

theorem compareBytes_nil_right (s : List UInt8) : compareBytes s [] = s.length := by
  cases s <;> simp [compareBytes]

theorem compareBytes_order (s1 s2 : List UInt8) :
    (compareBytes s1 s2 < 0 ↔ s1 < s2) ∧ (compareBytes s1 s2 = 0 ↔ s1 = s2) := by
  induction s1 generalizing s2 with
  | nil =>
    rw [compareBytes_nil_left]
    cases s2 <;> simp
    omega
  | cons b1 s1 ih =>
    cases s2 with
    | nil =>
      rw [compareBytes_nil_right]
      simp
      omega
    | cons b2 s2 =>
      rw [compareBytes, List.cons_lt_cons_iff, List.cons.injEq]
      by_cases hb : b1 = b2
      · subst hb
        simpa using ih s2
      · have hne : b1.toNat ≠ b2.toNat := fun h => hb (UInt8.toNat_inj.mp h)
        rw [if_pos hb, UInt8.lt_iff_toNat_lt]
        simp only [hb, false_and, or_false, iff_false]
        omega

/-- `CompareTo` orders the fields by their names and then by their values, and is zero between equal
fields alone. -/
theorem compareTo_order (f g : HeaderField20) :
    (compareTo f g < 0 ↔ f.name < g.name ∨ f.name = g.name ∧ f.value < g.value) ∧
      (compareTo f g = 0 ↔ f = g) ∧
      (equalsBytes f.name g.name && equalsBytes f.value g.value) = decide (compareTo f g = 0) := by
  obtain ⟨hname, hname0⟩ := compareBytes_order f.name g.name
  obtain ⟨hvalue, hvalue0⟩ := compareBytes_order f.value g.value
  have heq : f = g ↔ f.name = g.name ∧ f.value = g.value := by
    cases f
    cases g
    simp
  have hzero : compareTo f g = 0 ↔ f = g := by
    rw [compareTo, heq]
    by_cases h : f.name = g.name
    · rw [if_pos (hname0.mpr h), hvalue0]
      simp [h]
    · rw [if_neg (mt hname0.mp h)]
      simp [h, hname0]
  refine ⟨?_, hzero, ?_⟩
  · rw [compareTo]
    by_cases h : f.name = g.name
    · rw [if_pos (hname0.mpr h), hvalue]
      simp [h, List.lt_irrefl]
    · rw [if_neg (mt hname0.mp h), hname]
      simp [h]
  · rw [Bool.eq_iff_iff, decide_eq_true_iff, hzero, heq, Bool.and_eq_true, equalsBytes_iff,
      equalsBytes_iff]

end HeaderField20

namespace StaticTable

/-- Behind the entries of a name the name does not come again. -/
def Grouped : List HeaderField20 → Prop
  | [] => True
  | e :: l => (∀ e' ∈ l.dropWhile (·.name = e.name), e'.name ≠ e.name) ∧ Grouped l

def Grouped.decide : (l : List HeaderField20) → Decidable (Grouped l)
  | [] => inferInstanceAs (Decidable True)
  | e :: l =>
    have := Grouped.decide l
    inferInstanceAs (Decidable
      ((∀ e' ∈ l.dropWhile (·.name = e.name), e'.name ≠ e.name) ∧ Grouped l))

instance (l : List HeaderField20) : Decidable (Grouped l) := Grouped.decide l

theorem length_STATIC_TABLE : STATIC_TABLE.length = 61 := rfl

theorem staticTable_grouped : Grouped STATIC_TABLE := by decide +kernel

theorem staticTable_ascii : ∀ e ∈ STATIC_TABLE, ∀ b ∈ e.name, b < 0x80 := by decide +kernel

/-- What comes of looking for an entry: its place counted from one, or -1. -/
def place (i : Option ℕ) : ℤ :=
  match i with
  | none => -1
  | some i => i + 1

theorem Grouped.of_append {l l' : List HeaderField20} (h : Grouped (l ++ l')) : Grouped l' := by
  induction l with
  | nil => exact h
  | cons e l ih => exact ih h.2

theorem lookup_createMap (table : List HeaderField20) (k : ℕ) (key : Str) :
    (AList.lookup key ((table.zipIdx k).reverse.foldl
        (fun (ret : Dictionary Str ℕ) (entry, i) =>
          AList.insert (Utf8.getString entry.name) (i + 1) ret) ∅) : Option ℕ) =
      (table.findIdx? (fun e => Utf8.getString e.name = key)).map (k + 1 + ·) := by
  rw [List.foldl_reverse]
  induction table generalizing k with
  | nil => simp
  | cons e table ih =>
    rw [List.zipIdx_cons, List.foldr_cons, List.findIdx?_cons]
    by_cases hkey : Utf8.getString e.name = key
    · subst hkey
      simp [AList.lookup_insert]
    · rw [AList.lookup_insert_ne (Ne.symm hkey), ih]
      simp only [hkey, decide_false, Bool.false_eq_true, if_false, Option.map_map]
      congr 1
      funext i
      simp only [Function.comp]
      omega

theorem findIdx?_congr {l : List HeaderField20} {p q : HeaderField20 → Bool}
    (h : ∀ e ∈ l, p e = q e) : l.findIdx? p = l.findIdx? q := by
  induction l with
  | nil => rfl
  | cons e l ih =>
    rw [List.findIdx?_cons, List.findIdx?_cons, h e List.mem_cons_self,
      ih fun e' he' => h e' (List.mem_cons_of_mem _ he')]

/-- The lowest index of the name. -/
theorem getIndexOfName_eq (name : List UInt8) :
    getIndexOfName name = place (STATIC_TABLE.findIdx? (·.name = name)) := by
  have hfind : STATIC_TABLE.findIdx? (fun e => Utf8.getString e.name = Utf8.getString name) =
      STATIC_TABLE.findIdx? (·.name = name) := by
    refine findIdx?_congr fun e he => ?_
    rw [decide_eq_decide, eq_comm, Utf8.getString_eq_ascii_iff (staticTable_ascii e he), eq_comm]
  rw [getIndexOfName, STATIC_INDEX_BY_NAME, lookup_createMap, hfind]
  cases STATIC_TABLE.findIdx? (·.name = name) with
  | none => rfl
  | some i => simp [place, Nat.add_comm]

theorem scan_other {name value : List UInt8} {l : List HeaderField20}
    (h : ∀ e ∈ l, e.name ≠ name) (index : ℤ) : scan name value l index = -1 := by
  cases l with
  | nil => rfl
  | cons e l =>
    have hne : HeaderField20.equalsBytes name e.name = false := by
      rw [← Bool.not_eq_true, HeaderField20.equalsBytes_iff]
      exact fun heq => h e List.mem_cons_self heq.symm
    rw [scan, hne]
    rfl

/-- The loop looks through the entries of the name at the front, which are all of them. -/
theorem scan_eq {name : List UInt8} {l : List HeaderField20} (value : List UInt8)
    (h : ∀ e ∈ l.dropWhile (·.name = name), e.name ≠ name) (k : ℕ) :
    scan name value l (k + 1) = place ((l.findIdx? (· = ⟨name, value⟩)).map (k + ·)) := by
  induction l generalizing k with
  | nil => rfl
  | cons e l ih =>
    by_cases hname : e.name = name
    · subst hname
      rw [List.dropWhile_cons_of_pos (by simp)] at h
      rw [scan, (HeaderField20.equalsBytes_iff _ _).mpr rfl, List.findIdx?_cons]
      by_cases hvalue : value = e.value
      · subst hvalue
        rw [(HeaderField20.equalsBytes_iff _ _).mpr rfl]
        simp [place]
      · have hne : HeaderField20.equalsBytes value e.value = false := by
          rw [← Bool.not_eq_true, HeaderField20.equalsBytes_iff]
          exact hvalue
        have hentry : e ≠ ⟨e.name, value⟩ := fun heq =>
          hvalue (congrArg HeaderField20.value heq).symm
        have hnext := ih h (k + 1)
        rw [hne]
        simp only [Bool.not_true, Bool.false_eq_true, if_false, hentry, decide_false,
          Option.map_map]
        rw [show ((k : ℤ) + 1 + 1) = ((k + 1 : ℕ) : ℤ) + 1 by omega, hnext]
        congr 2
        funext i
        simp only [Function.comp]
        omega
    · rw [List.dropWhile_cons_of_neg (by simpa using hname)] at h
      have hnone : (e :: l).findIdx? (· = ⟨name, value⟩) = none := by
        rw [List.findIdx?_eq_none_iff]
        intro e' he' 
        simp only [decide_eq_false_iff_not]
        rintro rfl
        exact h _ he' rfl
      rw [scan_other h, hnone]
      rfl

/-- The field is found just when it is in the table, and at its lowest index. -/
theorem getIndex_eq (name value : List UInt8) :
    getIndex name value = place (STATIC_TABLE.findIdx? (· = ⟨name, value⟩)) := by
  rw [getIndex, getIndexOfName_eq]
  cases hfind : STATIC_TABLE.findIdx? (·.name = name) with
  | none =>
    have hnone : STATIC_TABLE.findIdx? (· = ⟨name, value⟩) = none := by
      rw [List.findIdx?_eq_none_iff] at hfind ⊢
      intro e he
      simp only [decide_eq_false_iff_not] at hfind ⊢
      rintro rfl
      exact hfind _ he rfl
    rw [hnone]
    rfl
  | some i =>
    obtain ⟨hi, hname, hbefore⟩ := List.findIdx?_eq_some_iff_getElem.mp hfind
    have hne : place (some i) ≠ -1 := by
      simp only [place]
      omega
    have hstart : (place (some i) - 1).toNat = i := by simp [place]
    simp only [if_neg hne, hstart]
    have hgrouped : Grouped (STATIC_TABLE.drop i) :=
      Grouped.of_append (l := STATIC_TABLE.take i)
        ((List.take_append_drop i STATIC_TABLE).symm ▸ staticTable_grouped)
    have hrun : ∀ e ∈ (STATIC_TABLE.drop i).dropWhile (·.name = name), e.name ≠ name := by
      rw [List.drop_eq_getElem_cons hi] at hgrouped ⊢
      have hfirst : STATIC_TABLE[i].name = name := by simpa using hname
      rw [List.dropWhile_cons_of_pos (by simpa using hfirst), ← hfirst]
      exact hgrouped.1
    have hscan := scan_eq value hrun i
    have hfront : (STATIC_TABLE.take i).findIdx? (· = ⟨name, value⟩) = none := by
      rw [List.findIdx?_eq_none_iff]
      intro e he
      obtain ⟨j, hj, rfl⟩ := List.mem_iff_getElem.mp he
      have hji : j < i := by
        rw [List.length_take] at hj
        omega
      have hother := hbefore j hji
      simp only [decide_eq_true_iff] at hother
      simp only [decide_eq_false_iff_not, List.getElem_take]
      intro heq
      exact hother (congrArg HeaderField20.name heq)
    have hsplit : STATIC_TABLE.findIdx? (· = ⟨name, value⟩) =
        ((STATIC_TABLE.drop i).findIdx? (· = ⟨name, value⟩)).map (i + ·) := by
      conv_lhs => rw [← List.take_append_drop i STATIC_TABLE, List.findIdx?_append, hfront]
      rw [List.length_take, Nat.min_eq_left hi.le, Option.none_or]
      congr 1
      funext j
      exact Nat.add_comm j i
    rw [hsplit]
    exact hscan

end StaticTable

end DecodingProxy.Http20
