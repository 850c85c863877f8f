import DecodingProxy.Lib.Fuel
import DecodingProxy.Runtime.Dictionary

/-!
# The search of `IziNodeNavigator`

`First` and `TryFirst` go down along the edges in their order, up to the first data that the
predicate takes. The search does not keep where it was, and it takes no node without relations for
a leaf: it returns if and only if it comes to no such node and to none twice on one way down.
-/

namespace DecodingProxy.Nodes
open DecodingProxy.Fuel DecodingProxy.Runs DecodingProxy.Runtime Relation

structure IziNode where
  id : ℤ

/-- `b` is `none` where it is `null`. -/
structure IziEdge where
  b : Option IziNode

structure NodeRelations where
  edges : List IziEdge

/-- `relationsPerId`. -/
abbrev IziNodeRelations := Dictionary ℤ NodeRelations

abbrev StdStore (T : Type) := Dictionary ℤ T

/-- What `storesByType` holds for the type `T`. -/
inductive NodeAssociation (T : Type)
  | missing
  | otherStore
  | std (store : StdStore T)

def NodeAssociation.stdStore {T : Type} : NodeAssociation T → Except Fault (StdStore T)
  | .missing => .error (.raised .keyNotFound)
  | .otherStore => .error (.raised .nullReference)
  | .std store => .ok store

/-- `relationsPerId[id]`. -/
def getRelations (relations : IziNodeRelations) (id : ℤ) : Except Fault NodeRelations :=
  relations.get id

namespace IziNodeNavigator
variable {T : Type}

/-- The `foreach` of both methods, where `tryFirst` goes on below a node. -/
def firstOfEdges (predictate : T → Bool) (store : StdStore T)
    (tryFirst : ℤ → Except Halt (Option T)) : List IziEdge → Except Halt (Option T)
  | [] => .ok none
  | edge :: edges =>
    match edge.b with
    | none => .error (.threw (.raised .nullReference))
    | some b => do
      let data ← (store.get b.id).mapError Halt.threw
      if predictate data then .ok (some data)
      else
        let result ← tryFirst b.id
        if result.isSome then .ok result else firstOfEdges predictate store tryFirst edges

/-- `none` where it returns `false`. -/
def tryFirst (relations : IziNodeRelations) (predictate : T → Bool) (store : StdStore T) :
    ℕ → ℤ → Except Halt (Option T)
  | 0, _ => .error .diverges
  | fuel + 1, id => do
    let realtions ← (getRelations relations id).mapError Halt.threw
    firstOfEdges predictate store (tryFirst relations predictate store fuel) realtions.edges

def notFounded (id : ℤ) (typeName : String) : Fault :=
  .thrown .nullReference s!"Not Founded for id:{id}. type:{typeName}"

def first (relations : IziNodeRelations) (associations : NodeAssociation T) (typeName : String)
    (predictate : T → Bool) (fuel : ℕ) (id : ℤ) : Except Halt T := do
  let store ← associations.stdStore.mapError Halt.threw
  let realtions ← (getRelations relations id).mapError Halt.threw
  let result ←
    firstOfEdges predictate store (tryFirst relations predictate store fuel) realtions.edges
  match result with
  | some data => .ok data
  | none => .error (.threw (notFounded id typeName))

/-! ### The graph -/

section Graph
variable (relations : IziNodeRelations) (predictate : T → Bool) (store : StdStore T)

def HasEdge (p q : ℤ) : Prop :=
  ∃ realtions, AList.lookup p relations = some realtions ∧
    ∃ edge ∈ realtions.edges, ∃ b, edge.b = some b ∧ b.id = q

/-- A node below `p`, over one edge or more. -/
def Descendant (p q : ℤ) : Prop := TransGen (HasEdge relations) p q

/-- The predicate takes the data of the node. -/
def Matches (q : ℤ) : Prop := ∃ data, AList.lookup q store = some data ∧ predictate data = true

/-- Neither the node nor one below it is what is looked for. -/
def Unmatched (p : ℤ) : Prop :=
  ∀ q, ReflTransGen (HasEdge relations) p q → ¬ Matches predictate store q

/-- An edge of `p` in front of which no edge leads to what is looked for. -/
def LooksAt (p : ℤ) (edge : IziEdge) : Prop :=
  ∃ realtions before behind, AList.lookup p relations = some realtions ∧
    realtions.edges = before ++ edge :: behind ∧
    ∀ passed ∈ before, ∀ b ∈ passed.b, Unmatched relations predictate store b.id

/-- The search goes on below the node that such an edge leads to. -/
def Enters (p q : ℤ) : Prop :=
  ∃ edge b, LooksAt relations predictate store p edge ∧ edge.b = some b ∧ b.id = q ∧
    ¬ Matches predictate store q

/-- The node has no relations, or such an edge leads nowhere or to a node without data. -/
def Stuck (p : ℤ) : Prop :=
  p ∉ relations ∨ ∃ edge, LooksAt relations predictate store p edge ∧ ∀ b ∈ edge.b, b.id ∉ store

/-- Where the search comes to: no node is stuck, and none is come to again from below itself. -/
def WayIsFree (id : ℤ) : Prop :=
  ∀ q, ReflTransGen (Enters relations predictate store) id q →
    ¬ Stuck relations predictate store q ∧ ¬ TransGen (Enters relations predictate store) q q

/-- The methods end, `TryFirst` finds something if and only if a node that can be reached is what is
looked for, and the data that is returned is the data of such a node. -/
def SearchComplete (reaches : ℤ → ℤ → Prop) (typeName : String) (id : ℤ) : Prop :=
  ∃ result, Returns (fun fuel => tryFirst relations predictate store fuel id) result ∧
    (result.isSome ↔ ∃ q, reaches id q ∧ Matches predictate store q) ∧
    (∀ data ∈ result, ∃ q, reaches id q ∧ AList.lookup q store = some data ∧
      predictate data = true) ∧
    ∃ fuel, first relations (.std store) typeName predictate fuel id =
      result.elim (.error (.threw (notFounded id typeName))) .ok

end Graph

/-! ### One node -/

section Edges
variable {predictate : T → Bool} {store : StdStore T} {search search' : ℤ → Except Halt (Option T)}
  {edge : IziEdge} {edges : List IziEdge} {result : Option T} {data : T}

theorem not_matches {q : ℤ} (hdata : AList.lookup q store = some data)
    (hmatch : predictate data = false) : ¬ Matches predictate store q := by
  rintro ⟨other, hother, htaken⟩
  rw [hdata, Option.some.injEq] at hother
  rw [← hother, hmatch] at htaken
  cases htaken

theorem firstOfEdges_cons_ok_iff :
    firstOfEdges predictate store search (edge :: edges) = .ok result ↔
      ∃ b data, edge.b = some b ∧ AList.lookup b.id store = some data ∧
        (predictate data = true ∧ result = some data ∨
          predictate data = false ∧ ∃ below, search b.id = .ok below ∧
            (below.isSome ∧ result = below ∨
              below = none ∧ firstOfEdges predictate store search edges = .ok result)) := by
  rw [firstOfEdges]
  cases hb : edge.b with
  | none => simp
  | some b =>
    simp only [do_ok_iff, mapError_ok_iff, Dictionary.get_ok_iff, Option.some.injEq]
    constructor
    · rintro ⟨data, hdata, h⟩
      refine ⟨b, data, rfl, hdata, ?_⟩
      cases hmatch : predictate data with
      | true =>
        rw [hmatch, if_pos rfl] at h
        cases h
        exact .inl ⟨rfl, rfl⟩
      | false =>
        rw [hmatch, if_neg Bool.false_ne_true] at h
        obtain ⟨below, hbelow, h⟩ := do_ok_iff.mp h
        refine .inr ⟨rfl, below, hbelow, ?_⟩
        cases below with
        | none => exact .inr ⟨rfl, h⟩
        | some found =>
          cases h
          exact .inl ⟨rfl, rfl⟩
    · rintro ⟨_, data, rfl, hdata, h⟩
      refine ⟨data, hdata, ?_⟩
      rcases h with ⟨hmatch, rfl⟩ | ⟨hmatch, below, hbelow, h⟩
      · rw [if_pos hmatch]
      · rw [hmatch, if_neg Bool.false_ne_true, do_of_ok hbelow]
        rcases h with ⟨hsome, rfl⟩ | ⟨rfl, h⟩
        · rw [if_pos hsome]
        · exact h

theorem firstOfEdges_some
    (h : firstOfEdges predictate store search edges = .ok (some data)) :
    ∃ edge ∈ edges, ∃ b, edge.b = some b ∧
      (AList.lookup b.id store = some data ∧ predictate data = true ∨
        search b.id = .ok (some data)) := by
  induction edges with
  | nil => cases h
  | cons edge edges ih =>
    obtain ⟨b, here, hb, hhere, h⟩ := firstOfEdges_cons_ok_iff.mp h
    rcases h with ⟨hmatch, heq⟩ | ⟨-, below, hbelow, h⟩
    · cases heq
      exact ⟨edge, List.mem_cons_self, b, hb, .inl ⟨hhere, hmatch⟩⟩
    · rcases h with ⟨-, rfl⟩ | ⟨rfl, h⟩
      · exact ⟨edge, List.mem_cons_self, b, hb, .inr hbelow⟩
      · obtain ⟨edge', hmem, hedge⟩ := ih h
        exact ⟨edge', List.mem_cons_of_mem _ hmem, hedge⟩

theorem firstOfEdges_none (h : firstOfEdges predictate store search edges = .ok none) :
    ∀ edge ∈ edges, ∃ b, edge.b = some b ∧ ¬ Matches predictate store b.id ∧
      search b.id = .ok none := by
  induction edges with
  | nil => exact nofun
  | cons edge edges ih =>
    obtain ⟨b, here, hb, hhere, h⟩ := firstOfEdges_cons_ok_iff.mp h
    rcases h with ⟨-, heq⟩ | ⟨hmatch, below, hbelow, h⟩
    · cases heq
    · obtain ⟨rfl, hrest⟩ :
          below = none ∧ firstOfEdges predictate store search edges = .ok none := by
        rcases h with ⟨hsome, rfl⟩ | h
        · cases hsome
        · exact h
      have hnot := not_matches hhere hmatch
      intro edge' hmem
      rcases List.mem_cons.mp hmem with rfl | hmem
      · exact ⟨b, hb, hnot, hbelow⟩
      · exact ih hrest edge' hmem

theorem firstOfEdges_below (h : ∀ id, Fuel.Below Halt.diverges (search id) (search' id)) :
    Fuel.Below Halt.diverges (firstOfEdges predictate store search edges)
      (firstOfEdges predictate store search' edges) := by
  induction edges with
  | nil => exact .refl _
  | cons edge edges ih =>
    rw [firstOfEdges, firstOfEdges]
    cases edge.b with
    | none => exact .refl _
    | some b =>
      apply Below.bind (.refl _)
      intro data
      split
      · exact .refl _
      · apply Below.bind (h b.id)
        intro result
        split
        · exact .refl _
        · exact ih

end Edges

/-! ### The whole search -/

section Search
variable {relations : IziNodeRelations} {predictate : T → Bool} {store : StdStore T}
  {p q : ℤ} {fuel : ℕ} {result : Option T} {data : T}

theorem tryFirst_succ_ok_iff :
    tryFirst relations predictate store (fuel + 1) p = .ok result ↔
      ∃ realtions, AList.lookup p relations = some realtions ∧
        firstOfEdges predictate store (tryFirst relations predictate store fuel)
          realtions.edges = .ok result := by
  rw [tryFirst, do_ok_iff]
  simp only [mapError_ok_iff, getRelations, Dictionary.get_ok_iff]

theorem tryFirst_increasing (p : ℤ) :
    Increasing Halt.diverges fun fuel => tryFirst relations predictate store fuel p := by
  intro fuel
  induction fuel generalizing p with
  | zero => exact .inl rfl
  | succ fuel ih =>
    apply Below.bind (.refl _)
    intro realtions
    exact firstOfEdges_below ih

theorem tryFirst_some (h : tryFirst relations predictate store fuel p = .ok (some data)) :
    ∃ q, Descendant relations p q ∧ AList.lookup q store = some data ∧ predictate data = true := by
  induction fuel generalizing p with
  | zero => cases h
  | succ fuel ih =>
    obtain ⟨realtions, hrelations, h⟩ := tryFirst_succ_ok_iff.mp h
    obtain ⟨edge, hmem, b, hb, hfound⟩ := firstOfEdges_some h
    have hedge : HasEdge relations p b.id := ⟨realtions, hrelations, edge, hmem, b, hb, rfl⟩
    rcases hfound with ⟨hdata, hmatch⟩ | hbelow
    · exact ⟨b.id, .single hedge, hdata, hmatch⟩
    · obtain ⟨q, hq, hdata, hmatch⟩ := ih hbelow
      exact ⟨q, .head hedge hq, hdata, hmatch⟩

theorem tryFirst_none (h : tryFirst relations predictate store fuel p = .ok none)
    (hq : Descendant relations p q) : ¬ Matches predictate store q := by
  induction fuel generalizing p with
  | zero => cases h
  | succ fuel ih =>
    obtain ⟨realtions, hrelations, h⟩ := tryFirst_succ_ok_iff.mp h
    have hnext : ∀ r, HasEdge relations p r → ¬ Matches predictate store r ∧
        tryFirst relations predictate store fuel r = .ok none := by
      rintro r ⟨realtions', hrelations', edge, hmem, b, hb, rfl⟩
      rw [hrelations, Option.some.injEq] at hrelations'
      subst hrelations'
      obtain ⟨b', hb', hnot, hbelow⟩ := firstOfEdges_none h edge hmem
      rw [hb, Option.some.injEq] at hb'
      subst hb'
      exact ⟨hnot, hbelow⟩
    rcases TransGen.head'_iff.mp hq with ⟨r, hedge, hrest⟩
    obtain ⟨hnot, hbelow⟩ := hnext r hedge
    rcases hrest.cases_head with rfl | ⟨s, hrs, hsq⟩
    · exact hnot
    · exact ih hbelow (TransGen.head' hrs hsq)

theorem tryFirst_isSome_iff (h : tryFirst relations predictate store fuel p = .ok result) :
    result.isSome ↔ ∃ q, Descendant relations p q ∧ Matches predictate store q := by
  cases result with
  | none =>
    refine iff_of_false nofun ?_
    rintro ⟨q, hq, hmatch⟩
    exact tryFirst_none h hq hmatch
  | some data =>
    obtain ⟨q, hq, hdata, hmatch⟩ := tryFirst_some h
    exact iff_of_true rfl ⟨q, hq, data, hdata, hmatch⟩

/-- The walk over the edges gets behind those that lead to nothing. -/
theorem firstOfEdges_passed {before edges : List IziEdge}
    (hpassed : ∀ passed ∈ before, ∀ b ∈ passed.b, Unmatched relations predictate store b.id)
    (h : firstOfEdges predictate store (tryFirst relations predictate store fuel)
      (before ++ edges) = .ok result) :
    firstOfEdges predictate store (tryFirst relations predictate store fuel) edges =
      .ok result := by
  induction before with
  | nil => exact h
  | cons edge before ih =>
    obtain ⟨b, here, hb, hhere, h⟩ := firstOfEdges_cons_ok_iff.mp h
    have hclean := hpassed edge List.mem_cons_self b (Option.mem_def.mpr hb)
    rcases h with ⟨hmatch, -⟩ | ⟨-, below, hbelow, h⟩
    · exact absurd ⟨here, hhere, hmatch⟩ (hclean b.id .refl)
    · rcases h with ⟨hsome, rfl⟩ | ⟨rfl, hrest⟩
      · obtain ⟨q, hq, hmatch⟩ := (tryFirst_isSome_iff hbelow).mp hsome
        exact absurd hmatch (hclean q hq.to_reflTransGen)
      · exact ih (fun passed hmem => hpassed passed (List.mem_cons_of_mem _ hmem)) hrest

/-- What a search that returns has come to is not stuck, and the searches below return too. -/
theorem tryFirst_enters (h : tryFirst relations predictate store (fuel + 1) p = .ok result) :
    ¬ Stuck relations predictate store p ∧ ∀ q, Enters relations predictate store p q →
      ∃ below, tryFirst relations predictate store fuel q = .ok below := by
  obtain ⟨realtions, hrelations, hwalk⟩ := tryFirst_succ_ok_iff.mp h
  have hlooks : ∀ {edge}, LooksAt relations predictate store p edge → ∃ b data,
      edge.b = some b ∧ AList.lookup b.id store = some data ∧ (¬ predictate data = true →
        ∃ below, tryFirst relations predictate store fuel b.id = .ok below) := by
    rintro edge ⟨realtions', before, behind, hrelations', hedges, hpassed⟩
    rw [hrelations, Option.some.injEq] at hrelations'
    subst hrelations'
    rw [hedges] at hwalk
    obtain ⟨b, data, hb, hdata, hcases⟩ :=
      firstOfEdges_cons_ok_iff.mp (firstOfEdges_passed hpassed hwalk)
    refine ⟨b, data, hb, hdata, fun hnot => ?_⟩
    rcases hcases with ⟨hmatch, -⟩ | ⟨-, below, hbelow, -⟩
    · exact absurd hmatch hnot
    · exact ⟨below, hbelow⟩
  constructor
  · rintro (hmissing | ⟨edge, hlooked, hnone⟩)
    · exact hmissing (Dictionary.mem_iff_lookup.mpr ⟨realtions, hrelations⟩)
    · obtain ⟨b, data, hb, hdata, -⟩ := hlooks hlooked
      exact hnone b (Option.mem_def.mpr hb) (Dictionary.mem_iff_lookup.mpr ⟨data, hdata⟩)
  · rintro q ⟨edge, b, hlooked, hb, rfl, hnot⟩
    obtain ⟨b', data, hb', hdata, hbelow⟩ := hlooks hlooked
    rw [hb, Option.some.injEq] at hb'
    subst hb'
    exact hbelow fun hmatch => hnot ⟨data, hdata, hmatch⟩

theorem firstOfEdges_ok_of_le {edges : List IziEdge} {n m : ℕ} (hle : n ≤ m)
    (h : firstOfEdges predictate store (tryFirst relations predictate store n) edges =
      .ok result) :
    firstOfEdges predictate store (tryFirst relations predictate store m) edges = .ok result := by
  have hbelow : Fuel.Below Halt.diverges
      (firstOfEdges predictate store (tryFirst relations predictate store n) edges)
      (firstOfEdges predictate store (tryFirst relations predictate store m) edges) :=
    firstOfEdges_below fun id => (tryFirst_increasing id).le hle
  rcases hbelow with hout | heq
  · rw [h] at hout
    cases hout
  · rw [← heq, h]

/-- The walk over the edges returns, if the search below the first node does, and the walk over the
other edges where that finds nothing. -/
theorem exists_firstOfEdges_cons {edge : IziEdge} {edges : List IziEdge} {b : IziNode}
    (hb : edge.b = some b) (hdata : AList.lookup b.id store = some data)
    (hbelow : ¬ Matches predictate store b.id →
      ∃ fuel below, tryFirst relations predictate store fuel b.id = .ok below)
    (hrest : Unmatched relations predictate store b.id → ∃ fuel result,
      firstOfEdges predictate store (tryFirst relations predictate store fuel) edges =
        .ok result) :
    ∃ fuel result, firstOfEdges predictate store (tryFirst relations predictate store fuel)
      (edge :: edges) = .ok result := by
  cases hmatch : predictate data with
  | true =>
    exact ⟨0, some data, firstOfEdges_cons_ok_iff.mpr ⟨b, data, hb, hdata, .inl ⟨hmatch, rfl⟩⟩⟩
  | false =>
    have hnot := not_matches hdata hmatch
    obtain ⟨n, below, hn⟩ := hbelow hnot
    cases below with
    | some found =>
      exact ⟨n, some found, firstOfEdges_cons_ok_iff.mpr
        ⟨b, data, hb, hdata, .inr ⟨hmatch, some found, hn, .inl ⟨rfl, rfl⟩⟩⟩⟩
    | none =>
      have hclean : Unmatched relations predictate store b.id := by
        intro q hq
        rcases reflTransGen_iff_eq_or_transGen.mp hq with rfl | hdescends
        · exact hnot
        · exact tryFirst_none hn hdescends
      obtain ⟨m, result, hm⟩ := hrest hclean
      have hfirst : tryFirst relations predictate store (max n m) b.id = .ok none :=
        (tryFirst_increasing b.id).ok_of_le (Nat.le_max_left n m) hn
      have hothers := firstOfEdges_ok_of_le (Nat.le_max_right n m) hm
      exact ⟨max n m, result, firstOfEdges_cons_ok_iff.mpr
        ⟨b, data, hb, hdata, .inr ⟨hmatch, none, hfirst, .inr ⟨rfl, hothers⟩⟩⟩⟩

theorem exists_tryFirst (hfree : ¬ Stuck relations predictate store p)
    (hnext : ∀ q, Enters relations predictate store p q →
      ∃ fuel below, tryFirst relations predictate store fuel q = .ok below) :
    ∃ fuel result, tryFirst relations predictate store fuel p = .ok result := by
  obtain ⟨hkey, hedge⟩ := not_or.mp hfree
  obtain ⟨realtions, hrelations⟩ := Dictionary.mem_iff_lookup.mp (not_not.mp hkey)
  have hwalk : ∀ before edges, realtions.edges = before ++ edges →
      (∀ passed ∈ before, ∀ b ∈ passed.b, Unmatched relations predictate store b.id) →
      ∃ fuel result, firstOfEdges predictate store (tryFirst relations predictate store fuel)
        edges = .ok result := by
    intro before edges
    induction edges generalizing before with
    | nil => exact fun _ _ => ⟨0, none, rfl⟩
    | cons edge edges ih =>
      intro hedges hpassed
      have hlooks : LooksAt relations predictate store p edge :=
        ⟨realtions, before, edges, hrelations, hedges, hpassed⟩
      have htarget : ¬ ∀ b ∈ edge.b, b.id ∉ store := fun hnone => hedge ⟨edge, hlooks, hnone⟩
      push Not at htarget
      obtain ⟨b, hb, hmem⟩ := htarget
      obtain ⟨data, hdata⟩ := Dictionary.mem_iff_lookup.mp hmem
      apply exists_firstOfEdges_cons hb hdata
      · intro hnot
        exact hnext b.id ⟨edge, b, hlooks, hb, rfl, hnot⟩
      · intro hclean
        apply ih (before ++ [edge]) (by rw [hedges, List.append_assoc, List.singleton_append])
        intro passed hmem b' hb'
        rcases List.mem_append.mp hmem with hmem | hmem
        · exact hpassed passed hmem b' hb'
        · rw [List.mem_singleton] at hmem
          subst hmem
          rw [Option.mem_unique hb' hb]
          exact hclean
  obtain ⟨n, result, hn⟩ := hwalk [] realtions.edges rfl nofun
  exact ⟨n + 1, result, tryFirst_succ_ok_iff.mpr ⟨realtions, hrelations, hn⟩⟩

theorem exists_tryFirst_iff (p : ℤ) :
    (∃ fuel result, tryFirst relations predictate store fuel p = .ok result) ↔
      WayIsFree relations predictate store p := by
  have hfinite : {p | ¬ Stuck relations predictate store p}.Finite := by
    apply (List.finite_toSet relations.keys).subset
    intro q hq
    exact AList.mem_keys.mp (not_not.mp (not_or.mp hq).1)
  apply ends_iff_no_cycle
    (fun fuel p => ∃ result, tryFirst relations predictate store fuel p = .ok result) hfinite
  · rintro fuel q ⟨result, h⟩
    cases fuel with
    | zero => cases h
    | succ fuel =>
      obtain ⟨hfree, hbelow⟩ := tryFirst_enters h
      exact ⟨hfree, fun r hr => ⟨fuel, Nat.lt_succ_self fuel, hbelow r hr⟩⟩
  · intro q hfree hnext
    exact exists_tryFirst hfree hnext

theorem first_of_tryFirst (typeName : String)
    (h : tryFirst relations predictate store (fuel + 1) p = .ok result) :
    first relations (.std store) typeName predictate fuel p =
      result.elim (.error (.threw (notFounded p typeName))) .ok := by
  obtain ⟨realtions, hrelations, hwalk⟩ := tryFirst_succ_ok_iff.mp h
  have hstore : (NodeAssociation.std store).stdStore.mapError Halt.threw = .ok store := rfl
  have hget : (getRelations relations p).mapError Halt.threw = .ok realtions :=
    mapError_ok_iff.mpr (Dictionary.get_ok_iff.mpr hrelations)
  rw [first, do_of_ok hstore, do_of_ok hget, do_of_ok hwalk]
  cases result <;> rfl

/-- For any notion of what can be reached that covers the nodes below. -/
theorem searchComplete_iff_reaches {reaches : ℤ → ℤ → Prop} (typeName : String)
    (hreaches : ∀ q, Descendant relations p q → reaches p q) :
    SearchComplete relations predictate store reaches typeName p ↔
      WayIsFree relations predictate store p ∧
        ((∃ q, reaches p q ∧ Matches predictate store q) →
          ∃ q, Descendant relations p q ∧ Matches predictate store q) := by
  rw [← exists_tryFirst_iff]
  constructor
  · rintro ⟨result, ⟨n, hn⟩, hsome, -⟩
    refine ⟨⟨n, result, hn⟩, fun hreached => ?_⟩
    exact (tryFirst_isSome_iff hn).mp (hsome.mpr hreached)
  · rintro ⟨⟨n, result, hn⟩, hbelow⟩
    refine ⟨result, ⟨n, hn⟩, ?_, ?_, ?_⟩
    · rw [tryFirst_isSome_iff hn]
      refine ⟨?_, hbelow⟩
      rintro ⟨q, hq, hmatch⟩
      exact ⟨q, hreaches q hq, hmatch⟩
    · intro data hdata
      rw [Option.mem_def.mp hdata] at hn
      obtain ⟨q, hq, hfound⟩ := tryFirst_some hn
      exact ⟨q, hreaches q hq, hfound⟩
    · cases n with
      | zero => cases hn
      | succ fuel => exact ⟨fuel, first_of_tryFirst typeName hn⟩

end Search

/-- The search is complete just where its way is free. Where the start counts as reached, although
the search does not look at it, there must not be something at the start only. -/
theorem searchComplete_iff (relations : IziNodeRelations) (predictate : T → Bool)
    (store : StdStore T) (typeName : String) (id : ℤ) :
    (SearchComplete relations predictate store (Descendant relations) typeName id ↔
        WayIsFree relations predictate store id) ∧
      (SearchComplete relations predictate store (ReflTransGen (HasEdge relations)) typeName id ↔
        WayIsFree relations predictate store id ∧ (Matches predictate store id →
          ∃ q, Descendant relations id q ∧ Matches predictate store q)) := by
  constructor
  · rw [searchComplete_iff_reaches typeName fun _ hq => hq]
    exact and_iff_left fun hreached => hreached
  · rw [searchComplete_iff_reaches typeName fun _ => TransGen.to_reflTransGen]
    refine and_congr_right fun _ => ⟨fun h hstart => h ⟨id, .refl, hstart⟩, ?_⟩
    rintro h ⟨q, hq, hmatch⟩
    rcases reflTransGen_iff_eq_or_transGen.mp hq with rfl | hdescends
    · exact h hmatch
    · exact ⟨q, hdescends, hmatch⟩

def edgeTo (id : ℤ) : IziEdge := ⟨some ⟨id⟩⟩

/-- The third node is what is looked for. -/
def threeStore : StdStore Bool :=
  AList.insert 1 false (AList.insert 2 false (AList.insert 3 true ∅))

/-- The second node is a leaf. -/
def leafRelations : IziNodeRelations := AList.insert 1 ⟨[edgeTo 2, edgeTo 3]⟩ ∅

/-- The second node leads back to the first one. -/
def cycleRelations : IziNodeRelations := AList.insert 2 ⟨[edgeTo 1]⟩ leafRelations

/-- In front of the third node the search throws at a leaf, and does not end on a cycle. -/
theorem search_not_complete :
    tryFirst leafRelations id threeStore 2 1 = .error (.threw (.raised .keyNotFound)) ∧
      (∀ fuel, tryFirst cycleRelations id threeStore fuel 1 = .error .diverges) ∧
      ¬ SearchComplete leafRelations id threeStore (Descendant leafRelations) "Boolean" 1 ∧
      ¬ SearchComplete cycleRelations id threeStore (Descendant cycleRelations) "Boolean" 1 := by
  have hleaf : tryFirst leafRelations id threeStore 2 1 =
      .error (.threw (.raised .keyNotFound)) := rfl
  have hcycle : ∀ fuel, tryFirst cycleRelations id threeStore fuel 1 = .error .diverges ∧
      tryFirst cycleRelations id threeStore fuel 2 = .error .diverges := by
    intro fuel
    induction fuel with
    | zero => exact ⟨rfl, rfl⟩
    | succ fuel ih =>
      have hfirst : tryFirst cycleRelations id threeStore (fuel + 1) 1 =
          tryFirst cycleRelations id threeStore fuel 2 >>= fun result =>
            if result.isSome then .ok result
            else firstOfEdges id threeStore (tryFirst cycleRelations id threeStore fuel)
              [edgeTo 3] := rfl
      have hsecond : tryFirst cycleRelations id threeStore (fuel + 1) 2 =
          tryFirst cycleRelations id threeStore fuel 1 >>= fun result =>
            if result.isSome then .ok result else .ok none := rfl
      rw [hfirst, hsecond, ih.1, ih.2]
      exact ⟨rfl, rfl⟩
  refine ⟨hleaf, fun fuel => (hcycle fuel).1, ?_, ?_⟩
  · rintro ⟨result, hresult, -⟩
    have hthrows : (tryFirst leafRelations id threeStore 2 1).map id =
        .error (.threw (.raised .keyNotFound)) := by
      rw [hleaf]
      rfl
    exact (tryFirst_increasing 1).not_returns hthrows nofun hresult
  · rintro ⟨result, ⟨fuel, hresult⟩, -⟩
    cases ((hcycle fuel).1.symm.trans hresult)

end IziNodeNavigator

end DecodingProxy.Nodes
