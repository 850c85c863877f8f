import DecodingProxy.Lib.Runs
import DecodingProxy.MappedFrameReader.Attribution
import Mathlib.Logic.Relation

/-!
# The position of the reader in every round of its loop

A round executes the current node and goes on to its `Tail`, which a switch puts on the case that
it takes. The nodes that read move the position by what they read; the others record without
moving it.
-/

namespace DecodingProxy.MappedFrameReader
open DecodingProxy.Runs DecodingProxy.Runtime Relation

/-! ### Rounds -/

/-- `Current` with all that `Tail` leads to, and the reader. -/
structure Progress where
  current : Chain
  reader : Reader

/-- The first case whose value is equal. -/
def Cases.find (value : List UInt8) : Cases → Option Chain
  | .nil => none
  | .case data chain rest => if data.toList = value then some chain else rest.find value

def Cases.default : Cases → Option Chain
  | .nil => none
  | .case none chain _ => some chain
  | .case (some _) _ rest => rest.default

/-- The `Tail` that `NodeSwitch` sets. -/
def Cases.select (value : List UInt8) (cases : Cases) : Except Fault Chain :=
  match cases.find value, cases.default with
  | some chain, _ => .ok chain
  | none, some chain => .ok chain
  | none, none => .error (.thrown .nullReference "Default Node Must be not empty")

/-- One round of the loop, as long as `Current` is a node. -/
def Progress.next (debug : Bool) (data : List UInt8) (p : Progress) :
    Option (Except Fault Progress) :=
  match p.current with
  | .null => none
  | .node n tail => some do
    let s ← executeNode debug data p.reader n
    .ok { current := tail, reader := s }
  | .switch valuePromise cases tail => some do
    let value ← switchValue valuePromise p.reader.nodesQueue cases
    let chain ← cases.select value
    .ok { current := chain.append tail, reader := p.reader.push .other }

def start (chain : Chain) (data : List UInt8) : Progress where
  current := chain
  reader := { position := 0, slice := data, nodesQueue := [] }

/-- A round that does not fail. -/
def Round (debug : Bool) (data : List UInt8) (p q : Progress) : Prop :=
  p.next debug data = some (.ok q)

variable {debug : Bool} {data : List UInt8} {p q : Progress} {s t : Reader}

/-! ### Rounds and whole runs -/

theorem Cases.executeMatch_eq (value : List UInt8) (s : Reader) : (cases : Cases) →
    cases.executeMatch debug data value s = (cases.find value).map (·.execute debug data s)
  | .nil => rfl
  | .case caseData chain rest => by
    unfold Cases.executeMatch Cases.find
    split_ifs
    · rfl
    · exact Cases.executeMatch_eq value s rest

theorem Cases.executeDefault_eq (s : Reader) : (cases : Cases) →
    cases.executeDefault debug data s = cases.default.map (·.execute debug data s)
  | .nil => rfl
  | .case none _ _ => rfl
  | .case (some _) _ rest => Cases.executeDefault_eq s rest

theorem Cases.orDefault_eq (value : List UInt8) (cases : Cases) (s : Reader) :
    orDefault (cases.executeMatch debug data value s) (cases.executeDefault debug data s) =
      (cases.select value).bind (·.execute debug data s) := by
  rw [Cases.executeMatch_eq, Cases.executeDefault_eq]
  unfold Cases.select
  cases cases.find value with
  | some chain => rfl
  | none =>
    cases cases.default with
    | some chain => rfl
    | none => rfl

theorem Chain.append_null : (c : Chain) → c.append .null = c
  | .null => rfl
  | .node n tail => congrArg (Chain.node n) tail.append_null
  | .switch valuePromise cases tail => congrArg (Chain.switch valuePromise cases) tail.append_null

theorem Chain.execute_append (d : Chain) (s : Reader) : (c : Chain) →
    (c.append d).execute debug data s = (c.execute debug data s).bind (d.execute debug data)
  | .null => rfl
  | .node n tail => by
    unfold Chain.append Chain.execute
    cases executeNode debug data s n with
    | error e => rfl
    | ok t => exact Chain.execute_append d t tail
  | .switch valuePromise cases tail => by
    unfold Chain.append Chain.execute
    cases switchValue valuePromise s.nodesQueue cases with
    | error e => rfl
    | ok value =>
      change (orDefault (cases.executeMatch debug data value (s.push .other))
        (cases.executeDefault debug data (s.push .other))).bind _ =
        ((orDefault (cases.executeMatch debug data value (s.push .other))
          (cases.executeDefault debug data (s.push .other))).bind _).bind _
      cases orDefault (cases.executeMatch debug data value (s.push .other))
        (cases.executeDefault debug data (s.push .other)) with
      | error e => rfl
      | ok t => exact Chain.execute_append d t tail

/-- A round leaves the rest of the run as it is. -/
theorem Round.execute_eq (h : Round debug data p q) :
    p.current.execute debug data p.reader = q.current.execute debug data q.reader := by
  obtain ⟨current, s⟩ := p
  cases current with
  | null => cases h
  | node n tail =>
    obtain ⟨t, ht, h⟩ := do_ok_iff.mp (Option.some.inj h)
    cases h
    exact do_of_ok ht
  | switch valuePromise cases tail =>
    obtain ⟨value, hvalue, h⟩ := do_ok_iff.mp (Option.some.inj h)
    obtain ⟨chain, hchain, h⟩ := do_ok_iff.mp h
    cases h
    change _ = (chain.append tail).execute debug data (s.push .other)
    rw [Chain.execute_append]
    have hselect : orDefault (cases.executeMatch debug data value (s.push .other))
        (cases.executeDefault debug data (s.push .other)) =
          chain.execute debug data (s.push .other) := by
      rw [Cases.orDefault_eq, hchain]
      rfl
    calc (Chain.switch valuePromise cases tail).execute debug data s
        = _ := do_of_ok hvalue
      _ = _ := congrArg (·.bind (tail.execute debug data)) hselect

theorem Cases.select_ok {value : List UInt8} {cases : Cases} {chain : Chain}
    (h : cases.select value = .ok chain) :
    cases.find value = some chain ∨ cases.default = some chain := by
  unfold Cases.select at h
  split at h
  · rename_i hfind
    cases h
    exact .inl hfind
  · rename_i hdefault
    cases h
    exact .inr hdefault
  · cases h

abbrev Reaches (debug : Bool) (data : List UInt8) : Progress → Progress → Prop :=
  ReflTransGen (Round debug data)

mutual

theorem Chain.reaches (d : Chain) {s t : Reader} : (c : Chain) → c.execute debug data s = .ok t →
    Reaches debug data ⟨c.append d, s⟩ ⟨d, t⟩
  | .null, h => by
    cases h
    exact .refl
  | .node n tail, h => by
    obtain ⟨m, hm, htail⟩ := do_ok_iff.mp h
    apply ReflTransGen.head _ (Chain.reaches d tail htail)
    exact congrArg some (do_of_ok hm)
  | .switch valuePromise cases tail, h => by
    obtain ⟨value, hvalue, h⟩ := do_ok_iff.mp h
    obtain ⟨m, hm, htail⟩ := do_ok_iff.mp h
    rw [Cases.orDefault_eq] at hm
    obtain ⟨chain, hchain, hm⟩ := bind_ok_iff.mp hm
    apply ReflTransGen.head (b := ⟨chain.append (tail.append d), s.push .other⟩)
    · apply congrArg some
      rw [do_of_ok hvalue, do_of_ok hchain]
    · apply ReflTransGen.trans _ (Chain.reaches d tail htail)
      rcases Cases.select_ok hchain with hfind | hdefault
      · exact Cases.reaches_find (tail.append d) cases hfind hm
      · exact Cases.reaches_default (tail.append d) cases hdefault hm
termination_by structural c => c

theorem Cases.reaches_find {value : List UInt8} {chain : Chain} (d : Chain) {s t : Reader} :
    (cases : Cases) → cases.find value = some chain → chain.execute debug data s = .ok t →
      Reaches debug data ⟨chain.append d, s⟩ ⟨d, t⟩
  | .nil, h, _ => by cases h
  | .case caseData first rest, h, hs => by
    unfold Cases.find at h
    split_ifs at h
    · rw [← Option.some.inj h] at hs ⊢
      exact Chain.reaches d first hs
    · exact Cases.reaches_find d rest h hs
termination_by structural cases => cases

theorem Cases.reaches_default {chain : Chain} (d : Chain) {s t : Reader} :
    (cases : Cases) → cases.default = some chain → chain.execute debug data s = .ok t →
      Reaches debug data ⟨chain.append d, s⟩ ⟨d, t⟩
  | .nil, h, _ => by cases h
  | .case none first rest, h, hs => by
    rw [← Option.some.inj h] at hs ⊢
    exact Chain.reaches d first hs
  | .case (some _) _ rest, h, hs => Cases.reaches_default d rest h hs
termination_by structural cases => cases

end

theorem execute_eq_of_reaches (h : Reaches debug data p q) :
    p.current.execute debug data p.reader = q.current.execute debug data q.reader := by
  induction h with
  | refl => rfl
  | tail _ hround ih => exact ih.trans hround.execute_eq

/-- A run that does not fail is rounds up to the end of the chain. -/
theorem execute_ok_iff {chain : Chain} {s t : Reader} :
    chain.execute debug data s = .ok t ↔ Reaches debug data ⟨chain, s⟩ ⟨.null, t⟩ := by
  constructor
  · intro h
    have hreaches := Chain.reaches .null chain h
    rwa [Chain.append_null] at hreaches
  · intro h
    exact execute_eq_of_reaches h

theorem readAllAsync_ok_iff {chain : Chain} {nodes : List Executed} :
    readAllAsync debug chain data = .ok nodes ↔
      ∃ t, Reaches debug data (start chain data) ⟨.null, t⟩ ∧ t.nodesQueue = nodes := by
  unfold readAllAsync
  rw [map_ok_iff]
  exact exists_congr fun t => and_congr_left fun _ => execute_ok_iff

/-! ### Positions -/

/-- What is left is the rest of the data behind the position. -/
structure InPlace (data : List UInt8) (s : Reader) : Prop where
  nonneg : 0 ≤ s.position
  length : s.position + s.slice.length = data.length
  slice : s.slice = data.drop s.position.toNat

/-- The bytes that a node records. -/
def Executed.recorded : Executed → List UInt8
  | .read value _ | .repeat _ value _ _ | .linked value => value
  | .result r => r.resultDeepCopy
  | .begins _ _ | .ends _ _ | .other => []

/-- The node records the next bytes and moves the position behind them. -/
def TakesRecorded (s t : Reader) : Prop :=
  ∃ node : Executed, t.nodesQueue = node :: s.nodesQueue ∧
    s.slice = node.recorded ++ t.slice ∧ t.position = s.position + node.recorded.length

/-- How far a round may move the position, by the node that it executes. -/
def Accounted (s t : Reader) : Chain → Prop
  | .node (.readFromSource _ _) _ | .node (.readWithCondition _ _) _
  | .node (.repeat _ (.whileCondition _)) _ => TakesRecorded s t
  | .node (.repeat _ (.func func)) _ =>
    ∃ consumed, func s.slice (dynamicResults s.nodesQueue) = .ok consumed ∧
      t.position = s.position + consumed
  | _ => t.position = s.position ∧ t.slice = s.slice

theorem InPlace.start (chain : Chain) (data : List UInt8) :
    InPlace data (start chain data).reader :=
  ⟨le_rfl, Int.zero_add _, rfl⟩

theorem InPlace.advance {consumed : ℤ} {node : Executed} (h : InPlace data s)
    (ht : s.advance consumed node = .ok t) : InPlace data t := by
  obtain ⟨slice, hslice, ht⟩ := do_ok_iff.mp ht
  cases ht
  obtain ⟨hl, hu, rfl⟩ := sliceFrom_inv hslice
  have hnonneg := h.nonneg
  have hlength := h.length
  refine ⟨Int.add_nonneg h.nonneg hl, ?_, ?_⟩
  · simp only [List.length_drop]
    omega
  · simp only [h.slice, List.drop_drop]
    congr 1
    omega

theorem TakesRecorded.of_advance {node : Executed} {consumed : ℕ}
    (hnode : node.recorded = s.slice.take consumed)
    (ht : s.advance consumed node = .ok t) : TakesRecorded s t := by
  obtain ⟨slice, hslice, ht⟩ := do_ok_iff.mp ht
  cases ht
  obtain ⟨-, hu, rfl⟩ := sliceFrom_inv hslice
  refine ⟨node, rfl, ?_, ?_⟩
  · simp only [hnode, Int.toNat_natCast, List.take_append_drop]
  · simp only [hnode, List.length_take]
    omega

/-- What a node that executes without a fault does to the position and to what is left. -/
theorem executeNode_accounted {n : Node} (tail : Chain) (hplace : InPlace data s)
    (h : executeNode debug data s n = .ok t) :
    InPlace data t ∧ Accounted s t (.node n tail) := by
  cases n with
  | readFromSource path lengthToRead =>
    simp only [executeNode] at h
    split_ifs at h
    obtain ⟨value, hvalue, h⟩ := do_ok_iff.mp h
    obtain ⟨hnonneg, -, rfl⟩ := sliceTo_inv hvalue
    obtain ⟨consumed, rfl⟩ := Int.eq_ofNat_of_zero_le hnonneg
    exact ⟨hplace.advance h, .of_advance rfl h⟩
  | readWithCondition path bytes =>
    simp only [executeNode] at h
    split at h
    · cases h
    · exact ⟨hplace.advance h, .of_advance rfl h⟩
  | «repeat» path mode =>
    change executeRepeat debug path s mode = .ok t at h
    unfold executeRepeat at h
    split_ifs at h
    cases mode with
    | whileCondition separatorAndEnclose =>
      cases separatorAndEnclose with
      | none => cases h
      | some separatorAndEnclose =>
        simp only [repeatMode] at h
        split_ifs at h
        split at h
        · exact ⟨hplace.advance h, .of_advance rfl h⟩
        · exact ⟨hplace.advance h, .of_advance rfl (Nat.cast_zero (R := ℤ) ▸ h)⟩
    | func func =>
      obtain ⟨consumed, hconsumed, h⟩ := do_ok_iff.mp h
      refine ⟨hplace.advance h, consumed, hconsumed, ?_⟩
      obtain ⟨slice, -, h⟩ := do_ok_iff.mp h
      cases h
      rfl
  | readFromLinked valuePromise =>
    obtain ⟨r, -, h⟩ := do_ok_iff.mp h
    cases h
    exact ⟨⟨hplace.nonneg, hplace.length, hplace.slice⟩, rfl, rfl⟩
  | result path mode =>
    obtain ⟨r, -, rfl⟩ := executeResult_ok h
    exact ⟨⟨hplace.nonneg, hplace.length, hplace.slice⟩, rfl, rfl⟩
  | frameBegin path | itemBegin path | frameEnd path | itemEnd path | nodeBegin | nodeEnd
    | schemeBegin name | schemeEnd name | field path | switchEnd path | switchItem
    | switchItemEnd =>
    cases h
    exact ⟨⟨hplace.nonneg, hplace.length, hplace.slice⟩, rfl, rfl⟩

theorem Round.accounted (h : Round debug data p q) (hplace : InPlace data p.reader) :
    InPlace data q.reader ∧ Accounted p.reader q.reader p.current := by
  obtain ⟨current, s⟩ := p
  cases current with
  | null => cases h
  | node n tail =>
    obtain ⟨t, ht, h⟩ := do_ok_iff.mp (Option.some.inj h)
    cases h
    exact executeNode_accounted tail hplace ht
  | switch valuePromise cases tail =>
    obtain ⟨value, -, h⟩ := do_ok_iff.mp (Option.some.inj h)
    obtain ⟨chain, -, h⟩ := do_ok_iff.mp h
    cases h
    exact ⟨⟨hplace.nonneg, hplace.length, hplace.slice⟩, rfl, rfl⟩

/-- A frame of one byte. -/
def oneByte : List Entry :=
  [.frame "F" [] (.typed { typeName := "byte", path := "F.x", reading := .fixed 1 } .done)]

end DecodingProxy.MappedFrameReader
