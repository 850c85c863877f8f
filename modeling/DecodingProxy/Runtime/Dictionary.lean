import DecodingProxy.Runtime.Faults
import Mathlib.Data.List.AList

/-!
# `Dictionary<TKey, TValue>`

`Add` throws on a key that is present. The order in which a dictionary enumerates
its entries is not specified; here it is the order of the association list.
-/

namespace DecodingProxy.Runtime

abbrev Dictionary (κ ν : Type*) := AList fun _ : κ => ν

namespace Dictionary

variable {κ ν : Type*} [DecidableEq κ]

def add (d : Dictionary κ ν) (key : κ) (value : ν) : Except Fault (Dictionary κ ν) :=
  if key ∈ d then .error (.raised .argument) else .ok (AList.insert key value d)

/-- `d[key]`. -/
def get (d : Dictionary κ ν) (key : κ) : Except Fault ν :=
  match AList.lookup key d with
  | some value => .ok value
  | none => .error (.raised .keyNotFound)

def remove (d : Dictionary κ ν) (key : κ) : Dictionary κ ν := AList.erase key d

def removeAll (d : Dictionary κ ν) (keys : List κ) : Dictionary κ ν := keys.foldl remove d

omit [DecidableEq κ] in
def items (d : Dictionary κ ν) : List (κ × ν) := d.entries.map fun entry => (entry.1, entry.2)

omit [DecidableEq κ] in
def values (d : Dictionary κ ν) : List ν := d.items.map Prod.snd

omit [DecidableEq κ] in
@[simp] theorem values_empty : values (∅ : Dictionary κ ν) = [] := rfl

omit [DecidableEq κ] in
theorem mem_values {d : Dictionary κ ν} {value : ν} :
    value ∈ d.values ↔ ∃ key, (⟨key, value⟩ : (_ : κ) × ν) ∈ d.entries := by
  simp [values, items]

theorem lookup_mem_values {d : Dictionary κ ν} {key : κ} {value : ν}
    (h : AList.lookup key d = some value) : value ∈ d.values :=
  mem_values.mpr ⟨key, AList.mem_lookup_iff.mp h⟩

theorem mem_values_add {d d' : Dictionary κ ν} {key : κ} {value v : ν}
    (h : d.add key value = .ok d') : v ∈ d'.values ↔ v = value ∨ v ∈ d.values := by
  unfold add at h
  split_ifs at h with hk
  cases h
  simp only [values, items, AList.entries_insert_of_notMem hk, List.map_cons, List.mem_cons]

theorem values_remove {d : Dictionary κ ν} {key : κ} {v : ν} (h : v ∈ (d.remove key).values) :
    v ∈ d.values := by
  obtain ⟨k, hk⟩ := mem_values.mp h
  exact mem_values.mpr ⟨k, (List.kerase_sublist key d.entries).mem hk⟩

theorem values_removeAll {d : Dictionary κ ν} {keys : List κ} {v : ν}
    (h : v ∈ (d.removeAll keys).values) : v ∈ d.values := by
  induction keys generalizing d with
  | nil => exact h
  | cons key keys ih => exact values_remove (ih h)

theorem mem_add {d d' : Dictionary κ ν} {key k : κ} {value : ν} (h : d.add key value = .ok d') :
    k ∈ d' ↔ k = key ∨ k ∈ d := by
  unfold add at h
  split_ifs at h with hk
  cases h
  exact AList.mem_insert d

theorem remove_insert {d : Dictionary κ ν} {key : κ} (h : key ∉ d) (value : ν) :
    remove (AList.insert key value d) key = d := by
  apply AList.ext
  change List.kerase key (AList.insert key value d).entries = d.entries
  rw [AList.entries_insert_of_notMem h]
  exact List.kerase_cons_eq rfl

theorem mem_iff_lookup {d : Dictionary κ ν} {key : κ} :
    key ∈ d ↔ ∃ value, AList.lookup key d = some value := by
  rw [← AList.lookup_isSome, Option.isSome_iff_exists]

theorem get_ok_iff {d : Dictionary κ ν} {key : κ} {value : ν} :
    d.get key = .ok value ↔ AList.lookup key d = some value := by
  unfold get
  cases AList.lookup key d <;> simp

theorem add_cases (d : Dictionary κ ν) (key : κ) (value : ν) :
    (key ∈ d ∧ d.add key value = .error (.raised .argument)) ∨
      ∃ d', key ∉ d ∧ d.add key value = .ok d' := by
  unfold add
  split_ifs with h
  · exact .inl ⟨h, rfl⟩
  · exact .inr ⟨_, h, rfl⟩

theorem lookup_add {d d' : Dictionary κ ν} {key k : κ} {value v : ν}
    (h : d.add key value = .ok d') (hv : AList.lookup k d = some v) :
    AList.lookup k d' = some v := by
  unfold add at h
  split_ifs at h with hk
  cases h
  have hne : k ≠ key := by
    rintro rfl
    exact hk (mem_iff_lookup.mpr ⟨v, hv⟩)
  rw [AList.lookup_insert_ne hne, hv]

theorem lookup_of_add {d d' : Dictionary κ ν} {key : κ} {value : ν} (h : d.add key value = .ok d')
    (k : κ) : AList.lookup k d' = if k = key then some value else AList.lookup k d := by
  unfold add at h
  split_ifs at h with hk
  cases h
  split_ifs with hkey
  · rw [hkey]
    exact AList.lookup_insert d
  · exact AList.lookup_insert_ne hkey

theorem lookup_remove (d : Dictionary κ ν) (key k : κ) :
    AList.lookup k (d.remove key) = if k = key then none else AList.lookup k d := by
  split_ifs with hkey
  · rw [hkey]
    exact AList.lookup_erase key d
  · exact AList.lookup_erase_ne hkey

theorem lookup_removeAll (d : Dictionary κ ν) (keys : List κ) (k : κ) :
    AList.lookup k (d.removeAll keys) = if k ∈ keys then none else AList.lookup k d := by
  induction keys generalizing d with
  | nil => simp [removeAll]
  | cons key keys ih =>
    have hcons : d.removeAll (key :: keys) = (d.remove key).removeAll keys := rfl
    rw [hcons, ih, lookup_remove]
    by_cases hk : k ∈ keys <;> simp [hk]

theorem mem_items {d : Dictionary κ ν} {key : κ} {value : ν} :
    (key, value) ∈ d.items ↔ AList.lookup key d = some value := by
  rw [← Option.mem_def, AList.mem_lookup_iff]
  simp [items]

/-- A value that stands behind one key at most is met once or not at all. -/
theorem filter_values [DecidableEq ν] {d : Dictionary κ ν} {key : κ} {value : ν}
    (h : ∀ k, AList.lookup k d = some value → k = key) :
    d.values.filter (· = value) =
      if AList.lookup key d = some value then [value] else [] := by
  have hkeys : (d.items.map Prod.fst).Nodup := by
    have hmap : d.items.map Prod.fst = d.keys := by simp [items, AList.keys, List.keys]
    rw [hmap]
    exact d.nodupKeys
  have hitems : ∀ item ∈ d.items, item.2 = value → item.1 = key := by
    rintro ⟨k, v⟩ hmem rfl
    exact h k (mem_items.mp hmem)
  simp only [← mem_items, values]
  generalize d.items = l at hkeys hitems
  induction l with
  | nil => simp
  | cons item l ih =>
    obtain ⟨k, v⟩ := item
    rw [List.map_cons, List.nodup_cons] at hkeys
    have hrest := ih hkeys.2 fun item hitem => hitems item (List.mem_cons_of_mem _ hitem)
    by_cases hv : v = value
    · obtain rfl : k = key := hitems (k, v) List.mem_cons_self hv
      have hnone : (k, value) ∉ l := fun hmem => hkeys.1 (List.mem_map.mpr ⟨_, hmem, rfl⟩)
      rw [if_neg hnone] at hrest
      simp [hv, hrest]
    · have hother : (key, value) ≠ (k, v) := fun heq => hv (congrArg Prod.snd heq).symm
      simp [hv, hrest, hother]

end Dictionary

end DecodingProxy.Runtime
