import DecodingProxy.Lib.Occurrences
import DecodingProxy.MappedFrameReader.ExecutedPaths
import DecodingProxy.Runtime.ArrayPool
import Mathlib.Data.List.Nodup

/-!
# Which bytes the result of an item or frame gets

The result of an item or frame is the slice from its first byte that is as long as all results
between its first and its last node together. Among these are the results of nested items,
which are sums of other results there, so that the bytes of a nested item count twice.
-/

namespace DecodingProxy.MappedFrameReader
open DecodingProxy.Occurrences DecodingProxy.Runs DecodingProxy.Runtime

/-! ### What is claimed of a reading -/

def bytesBetween (data : List UInt8) (first last : ℤ) : List UInt8 :=
  (data.drop first.toNat).take (last - first).toNat

/-- The result of every item and frame is the bytes between its first and its last node. -/
def Attributes (data : List UInt8) (nodes : List Executed) : Prop :=
  ∀ r, .result r ∈ nodes → r.isFromTo → ∀ first last,
    .begins r.path first ∈ nodes → .ends r.path last ∈ nodes →
      r.resultDeepCopy = bytesBetween data first last

def AttributesBytes (env : Environment) (entries : List Entry) (data : List UInt8) : Prop :=
  ∀ chain, SchemeImporter.fromEntries env entries = .ok chain →
    ∀ nodes, readAllAsync env.debug chain data = .ok nodes → Attributes data nodes

/-! ### When it holds -/

namespace Executed

def lengthConsumed : Executed → ℤ
  | .read _ n | .repeat _ _ n _ => n
  | _ => 0

def endOffset (path : String) : Executed → Option ℤ
  | .ends p offset => if p = path then some offset else none
  | _ => none

end Executed

def consumed (nodes : List Executed) : ℤ := (nodes.map (·.lengthConsumed)).sum

def firstOffset (path : String) (nodes : List Executed) : ℤ :=
  (nodes.findSome? (·.beginOffset path)).getD 0

def lastOffset (path : String) (nodes : List Executed) : ℤ :=
  (nodes.findSome? (·.endOffset path)).getD 0

/-- By how much a node adds more to the lengths of the results than it consumes itself: the
result of a field or vector its length, that of a nested item the bytes consumed in the item,
and a read takes away what it consumed. -/
def Executed.surplus (nodes : List Executed) : Executed → ℤ
  | .result r =>
    if r.isFromTo then lastOffset r.path nodes - firstOffset r.path nodes else r.length
  | node => -node.lengthConsumed

/-- The nodes after the first one of `path`. -/
def inside (path : String) (before : List Executed) : List Executed :=
  before.takeWhile fun node => (node.beginOffset path).isNone

/-- Inside the item or frame the surpluses cancel; where a linked value was written over its
result, it is those bytes. -/
def InBalance (data : List UInt8) (nodes : List Executed) (after : Option Executed)
    (node : Executed) (before : List Executed) : Prop :=
  match node, after with
  | .result r, some (.linked value) => r.isFromTo →
    value = bytesBetween data (firstOffset r.path nodes) (lastOffset r.path nodes)
  | .result r, _ => r.isFromTo → 2 ^ 32 ∣ ((inside r.path before).map (·.surplus nodes)).sum
  | _, _ => True

def Balanced (env : Environment) (entries : List Entry) (data : List UInt8) : Prop :=
  ∀ chain, SchemeImporter.fromEntries env entries = .ok chain →
    ∀ nodes, readAllAsync env.debug chain data = .ok nodes →
      Everywhere (InBalance data nodes) none nodes

/-! ### What the queue says of its nodes -/

/-- What holds of an executed node with the nodes before it. -/
def Recorded (data : List UInt8) (after : Option Executed) (node : Executed)
    (before : List Executed) : Prop :=
  match node with
  | .begins _ offset | .ends _ offset => offset = consumed before
  | .read _ n | .repeat _ _ n _ => 0 ≤ n
  | .result r => r.isFromTo →
    (∃ last rest, before = .ends r.path last :: rest) ∧
      (∃ first, .begins r.path first ∈ before) ∧
        r.length = r.resultDeepCopy.length ∧
          match after with
          | some (.linked value) => r.resultDeepCopy = value
          | _ => fromTo data r.path before = .ok r
  | .linked _ | .other => True

structure Reads (data : List UInt8) (s : Reader) : Prop where
  recorded : Everywhere (Recorded data) none s.nodesQueue
  position : s.position = consumed s.nodesQueue
  left : s.position + s.slice.length = data.length

def Executed.isLinked : Executed → Bool
  | .linked _ => true
  | _ => false

section Queue
variable {data : List UInt8} {nodes before : List Executed} {node : Executed}

@[simp] theorem consumed_cons (node : Executed) (nodes : List Executed) :
    consumed (node :: nodes) = node.lengthConsumed + consumed nodes := by
  simp [consumed]

@[simp] theorem consumed_append (nodes others : List Executed) :
    consumed (nodes ++ others) = consumed nodes + consumed others := by
  simp [consumed]

theorem Recorded.change_after {after other : Option Executed}
    (hother : ∀ next, other = some next → next.isLinked = false)
    (hafter : ∀ next, after = some next → next.isLinked = false)
    (h : Recorded data after node before) : Recorded data other node before := by
  cases node with
  | result r =>
    intro hfromTo
    obtain ⟨hend, hbegin, hlength, hvalue⟩ := h hfromTo
    refine ⟨hend, hbegin, hlength, ?_⟩
    split at hvalue
    · have hlinked := hafter _ rfl
      cases hlinked
    · split
      · have hlinked := hother _ rfl
        cases hlinked
      · exact hvalue
  | begins path offset | ends path offset => exact h
  | read value n | «repeat» path value n results => exact h
  | linked value => trivial
  | other => trivial

theorem Recorded.lengthConsumed_nonneg {after : Option Executed}
    (h : Recorded data after node before) : 0 ≤ node.lengthConsumed := by
  cases node <;> first | exact h | exact le_rfl

theorem consumed_mono {after : Option Executed} {later earlier : List Executed}
    (h : Everywhere (Recorded data) after (later ++ earlier)) :
    consumed earlier ≤ consumed (later ++ earlier) := by
  induction later generalizing after with
  | nil => exact le_rfl
  | cons node later ih =>
    have hrest := ih h.2
    have hnode := h.1.lengthConsumed_nonneg
    rw [List.cons_append, consumed_cons]
    omega

theorem consumed_nonneg {after : Option Executed}
    (h : Everywhere (Recorded data) after nodes) : 0 ≤ consumed nodes := by
  have hall : consumed [] ≤ consumed (nodes ++ []) := consumed_mono (by rwa [List.append_nil])
  rwa [List.append_nil] at hall

theorem push_recorded (h : Everywhere (Recorded data) none nodes)
    (hplain : node.isLinked = false) (hnode : Recorded data none node nodes) :
    Everywhere (Recorded data) none (node :: nodes) :=
  ⟨hnode, h.change_front fun _ _ _ hfirst =>
    hfirst.change_after (by rintro _ ⟨⟩; exact hplain) (by simp)⟩

/-- A linked value is written over the result before it. -/
theorem linked_recorded (h : Everywhere (Recorded data) none nodes) (value : List UInt8) :
    Everywhere (Recorded data) none
      (.linked value :: nodes.modifyHead (·.setResult value)) := by
  cases nodes with
  | nil => exact ⟨trivial, trivial⟩
  | cons node rest =>
    refine ⟨trivial, ?_, h.2.change_front fun _ _ _ hnext => ?_⟩
    · have hnode := h.1
      cases node with
      | result r =>
        intro hfromTo
        obtain ⟨hend, hbegin, -, -⟩ := hnode hfromTo
        exact ⟨hend, hbegin, rfl, rfl⟩
      | begins path offset | ends path offset => exact hnode
      | read value n | «repeat» path value n results => exact hnode
      | linked value => trivial
      | other => trivial
    · cases node with
      | linked value => exact hnext
      | result r | begins path offset | ends path offset | read value n
        | «repeat» path value n results | other =>
        exact hnext.change_after (by rintro _ ⟨⟩; rfl) (by rintro _ ⟨⟩; rfl)

@[simp] theorem setResult_lengthConsumed (value : List UInt8) (node : Executed) :
    (node.setResult value).lengthConsumed = node.lengthConsumed := by
  cases node <;> rfl

theorem consumed_modifyHead (value : List UInt8) (nodes : List Executed) :
    consumed (nodes.modifyHead (·.setResult value)) = consumed nodes := by
  cases nodes <;> simp

end Queue

/-! ### One node -/

section Steps
variable {debug : Bool} {data : List UInt8} {s t : Reader} {node : Executed} {n : Node}

theorem Reads.push (h : Reads data s) (hplain : node.isLinked = false)
    (hnone : node.lengthConsumed = 0) (hnode : Recorded data none node s.nodesQueue) :
    Reads data (s.push node) := by
  refine ⟨push_recorded h.recorded hplain hnode, ?_, h.left⟩
  have hposition := h.position
  simp only [Reader.push, consumed_cons, hnone]
  omega

theorem Reads.advance (h : Reads data s) {k : ℤ} (ht : s.advance k node = .ok t)
    (hplain : node.isLinked = false) (hconsumed : node.lengthConsumed = k)
    (hnode : 0 ≤ k → Recorded data none node s.nodesQueue) : Reads data t := by
  obtain ⟨slice, hslice, ht⟩ := do_ok_iff.mp ht
  cases ht
  obtain ⟨hpos, hle, rfl⟩ := sliceFrom_inv hslice
  have hposition := h.position
  have hleft := h.left
  refine ⟨push_recorded h.recorded hplain (hnode hpos), ?_, ?_⟩
  · simp only [consumed_cons, hconsumed]
    omega
  · simp only [List.length_drop]
    omega

theorem collect_isFromTo {path : String} {mode : ResultMode} {r : NodeResult}
    (h : collect data path s mode = .ok r) :
    (Node.result path mode).isResultFromTo = r.isFromTo := by
  cases mode with
  | none => cases h
  | singleTarget =>
    simp only [collect] at h
    split at h
    · cases h
      rfl
    · cases h
  | fromTo =>
    obtain ⟨walk, -, h⟩ := do_ok_iff.mp h
    obtain ⟨slice, -, h⟩ := do_ok_iff.mp h
    obtain ⟨slice, -, h⟩ := do_ok_iff.mp h
    cases h
    rfl
  | repeated =>
    simp only [collect] at h
    split at h
    · cases h
      rfl
    · cases h
  | func func =>
    obtain ⟨length, -, h⟩ := do_ok_iff.mp h
    obtain ⟨slice, -, h⟩ := do_ok_iff.mp h
    cases h
    rfl

theorem executeResult_ok {path : String} {mode : ResultMode}
    (h : executeResult debug data path mode s = .ok t) :
    ∃ r, collect data path s mode = .ok r ∧ t = s.push (.result r) := by
  unfold executeResult at h
  split_ifs at h
  obtain ⟨r, hr, h⟩ := do_ok_iff.mp h
  split_ifs at h
  cases h
  exact ⟨r, hr, rfl⟩

theorem executeRepeat_ok {path : String} {mode : RepeatMode}
    (h : executeRepeat debug path s mode = .ok t) :
    ∃ value k results, s.advance k (.repeat path value k results) = .ok t := by
  unfold executeRepeat at h
  split_ifs at h
  unfold repeatMode at h
  split at h
  · cases h
  · split_ifs at h
    split at h
    · exact ⟨_, _, _, h⟩
    · exact ⟨_, _, _, h⟩
  · obtain ⟨k, -, h⟩ := do_ok_iff.mp h
    exact ⟨_, k, _, h⟩

theorem Reads.plain (h : Reads data s) (hplain : n.isResultFromTo = false)
    (ht : executeNode debug data s n = .ok t) : Reads data t := by
  cases n with
  | frameBegin path | itemBegin path | frameEnd path | itemEnd path =>
    cases ht
    exact h.push rfl rfl h.position
  | nodeBegin | nodeEnd | schemeBegin name | schemeEnd name | field path | switchEnd path | switchItem
    | switchItemEnd =>
    cases ht
    exact h.push rfl rfl trivial
  | readFromSource path lengthToRead =>
    simp only [executeNode] at ht
    split_ifs at ht
    obtain ⟨value, -, ht⟩ := do_ok_iff.mp ht
    exact h.advance ht rfl rfl fun hk => hk
  | readWithCondition path bytes =>
    simp only [executeNode] at ht
    split at ht
    · cases ht
    · exact h.advance ht rfl rfl fun hk => hk
  | readFromLinked valuePromise =>
    obtain ⟨r, -, ht⟩ := do_ok_iff.mp ht
    cases ht
    refine ⟨linked_recorded h.recorded _, ?_, h.left⟩
    have hposition := h.position
    simp only [consumed_cons, consumed_modifyHead, Executed.lengthConsumed]
    omega
  | «repeat» path mode =>
    obtain ⟨value, k, results, ht⟩ := executeRepeat_ok ht
    exact h.advance ht rfl rfl fun hk => hk
  | result path mode =>
    obtain ⟨r, hr, rfl⟩ := executeResult_ok ht
    apply h.push rfl rfl
    intro hfromTo
    rw [collect_isFromTo hr] at hplain
    rw [hplain] at hfromTo
    cases hfromTo

theorem walkBack_ok {path : String} {nodes : List Executed} {r : ℤ × List Executed}
    (h : walkBack path nodes = .ok r) :
    ∃ after before, nodes = after ++ .begins path r.1 :: before ∧ r.2 = after.reverse ∧
      ∀ node ∈ after, node.beginOffset path = none := by
  induction nodes generalizing r with
  | nil => cases h
  | cons node heads ih =>
    unfold walkBack at h
    split at h
    · rename_i offset hoffset
      cases h
      refine ⟨[], heads, ?_, rfl, by simp⟩
      cases node with
      | begins p first =>
        simp only [Executed.beginOffset] at hoffset
        split_ifs at hoffset with hp
        cases hoffset
        rw [hp]
        rfl
      | result r | ends p first | read value n | «repeat» p value n results | linked value
        | other => cases hoffset
    · rename_i hnone
      obtain ⟨walk, hwalk, rfl⟩ := map_ok_iff.mp h
      obtain ⟨after, before, hnodes, hreverse, hafter⟩ := ih hwalk
      refine ⟨node :: after, before, by simp [hnodes], by simp [hreverse], ?_⟩
      rintro later (_ | ⟨_, hlater⟩)
      · exact hnone
      · exact hafter later hlater

theorem fromTo_ok {path : String} {nodes : List Executed} {r : NodeResult}
    (h : fromTo data path nodes = .ok r) :
    ∃ walk, walkBack path nodes = .ok walk ∧
      0 ≤ walk.1 ∧ walk.1 + r.length ≤ data.length ∧ 0 ≤ r.length ∧
        r.length = sumLength (walk.2.takeWhile fun node => !node.isEnd path) ∧
          r.path = path ∧ r.isFromTo = true ∧
            r.resultDeepCopy = (data.drop walk.1.toNat).take r.length.toNat := by
  obtain ⟨walk, hwalk, h⟩ := do_ok_iff.mp h
  obtain ⟨rest, hrest, h⟩ := do_ok_iff.mp h
  obtain ⟨slice, hslice, h⟩ := do_ok_iff.mp h
  cases h
  obtain ⟨hfirst, hfirstLe, rfl⟩ := sliceFrom_inv hrest
  obtain ⟨hlength, hlengthLe, rfl⟩ := sliceTo_inv hslice
  refine ⟨walk, hwalk, hfirst, ?_, hlength, rfl, rfl, rfl, rfl⟩
  rw [List.length_drop] at hlengthLe
  change walk.1 + sumLength _ ≤ _
  omega

theorem fromTo_length {path : String} {nodes : List Executed} {r : NodeResult}
    (h : fromTo data path nodes = .ok r) : r.length = r.resultDeepCopy.length := by
  obtain ⟨walk, -, hfirst, hle, hlength, -, -, -, hslice⟩ := fromTo_ok h
  rw [hslice, List.length_take, List.length_drop]
  omega

theorem Reads.closed (h : Reads data s) {path : String} (hn : n.endOf = some path) {m : Reader}
    (hm : executeNode debug data s n = .ok m)
    (ht : executeNode debug data m (.result path .fromTo) = .ok t) : Reads data t := by
  have hpush : m = s.push (.ends path s.position) := by
    cases n with
    | itemEnd p | frameEnd p =>
      cases hn
      cases hm
      rfl
    | _ => cases hn
  have hreads : Reads data m := by
    rw [hpush]
    exact h.push rfl rfl h.position
  obtain ⟨r, hr, rfl⟩ := executeResult_ok ht
  apply hreads.push rfl rfl
  intro _
  obtain ⟨walk, hwalk, -, -, -, -, hpath, -, -⟩ := fromTo_ok hr
  obtain ⟨after, before, hnodes, -, -⟩ := walkBack_ok hwalk
  refine ⟨⟨s.position, s.nodesQueue, by rw [hpush, hpath]; rfl⟩, ⟨walk.1, ?_⟩,
    fromTo_length hr, by rw [hpath]; exact hr⟩
  rw [hnodes, hpath]
  exact List.mem_append_right _ List.mem_cons_self

theorem Reads.run {ns : List Node} (hns : Bracketed ns) (h : Reads data s)
    (ht : Runs.run (executeNode debug data) s ns = .ok t) : Reads data t := by
  induction hns generalizing s with
  | nil =>
    cases ht
    exact h
  | plain hplain _ ih =>
    obtain ⟨m, hm, ht⟩ := run_cons_ok_iff.mp ht
    exact ih (h.plain hplain hm) ht
  | closed hend _ ih =>
    obtain ⟨m, hm, ht⟩ := run_cons_ok_iff.mp ht
    obtain ⟨u, hu, ht⟩ := run_cons_ok_iff.mp ht
    exact ih (h.closed hend hm hu) ht

/-! ### First and last nodes -/

def Executed.beginOf : Executed → Option String
  | .begins path _ => some path
  | _ => none

def Executed.endOf : Executed → Option String
  | .ends path _ => some path
  | _ => none

theorem executeNode_queue (ht : executeNode debug data s n = .ok t) :
    ∃ top others, t.nodesQueue = top :: others ∧ top.beginOf = n.beginOf ∧
      top.endOf = n.endOf ∧
        (others = s.nodesQueue ∨ ∃ value, others = s.nodesQueue.modifyHead (·.setResult value)) := by
  cases n with
  | frameBegin path | itemBegin path | frameEnd path | itemEnd path | nodeBegin | nodeEnd
    | schemeBegin name | schemeEnd name | field path | switchEnd path | switchItem
    | switchItemEnd =>
    cases ht
    exact ⟨_, _, rfl, rfl, rfl, .inl rfl⟩
  | readFromSource path lengthToRead =>
    simp only [executeNode] at ht
    split_ifs at ht
    obtain ⟨value, -, ht⟩ := do_ok_iff.mp ht
    obtain ⟨slice, -, ht⟩ := do_ok_iff.mp ht
    cases ht
    exact ⟨_, _, rfl, rfl, rfl, .inl rfl⟩
  | readWithCondition path bytes =>
    simp only [executeNode] at ht
    split at ht
    · cases ht
    · obtain ⟨slice, -, ht⟩ := do_ok_iff.mp ht
      cases ht
      exact ⟨_, _, rfl, rfl, rfl, .inl rfl⟩
  | readFromLinked valuePromise =>
    obtain ⟨r, -, ht⟩ := do_ok_iff.mp ht
    cases ht
    exact ⟨_, _, rfl, rfl, rfl, .inr ⟨_, rfl⟩⟩
  | «repeat» path mode =>
    obtain ⟨value, k, results, ht⟩ := executeRepeat_ok ht
    obtain ⟨slice, -, ht⟩ := do_ok_iff.mp ht
    cases ht
    exact ⟨_, _, rfl, rfl, rfl, .inl rfl⟩
  | result path mode =>
    obtain ⟨r, -, rfl⟩ := executeResult_ok ht
    exact ⟨_, _, rfl, rfl, rfl, .inl rfl⟩

theorem filterMap_modifyHead {α : Type*} {sel : Executed → Option α} {value : List UInt8}
    (hsel : ∀ node : Executed, sel (node.setResult value) = sel node) (nodes : List Executed) :
    (nodes.modifyHead (·.setResult value)).filterMap sel = nodes.filterMap sel := by
  cases nodes with
  | nil => rfl
  | cons node nodes => simp [List.filterMap_cons, hsel]

theorem run_ends {ns : List Node} (ht : Runs.run (executeNode debug data) s ns = .ok t) :
    t.nodesQueue.filterMap Executed.beginOf =
        (ns.filterMap Node.beginOf).reverse ++ s.nodesQueue.filterMap Executed.beginOf ∧
      t.nodesQueue.filterMap Executed.endOf =
        (ns.filterMap Node.endOf).reverse ++ s.nodesQueue.filterMap Executed.endOf := by
  induction ns generalizing s with
  | nil =>
    cases ht
    exact ⟨rfl, rfl⟩
  | cons n ns ih =>
    obtain ⟨m, hm, ht⟩ := run_cons_ok_iff.mp ht
    obtain ⟨hbegins, hends⟩ := ih ht
    obtain ⟨top, others, hqueue, htopBegin, htopEnd, hothers⟩ := executeNode_queue hm
    have hsame : others.filterMap Executed.beginOf = s.nodesQueue.filterMap Executed.beginOf ∧
        others.filterMap Executed.endOf = s.nodesQueue.filterMap Executed.endOf := by
      rcases hothers with rfl | ⟨value, rfl⟩
      · exact ⟨rfl, rfl⟩
      · exact ⟨filterMap_modifyHead (fun node => by cases node <;> rfl) _,
          filterMap_modifyHead (fun node => by cases node <;> rfl) _⟩
    constructor
    · rw [hbegins, hqueue, List.filterMap_cons, List.filterMap_cons, htopBegin, hsame.1]
      cases n.beginOf <;> simp
    · rw [hends, hqueue, List.filterMap_cons, List.filterMap_cons, htopEnd, hsame.2]
      cases n.endOf <;> simp

/-- What holds of the executed nodes of any reading. -/
structure Execution (data : List UInt8) (nodes : List Executed) : Prop where
  recorded : Everywhere (Recorded data) none nodes
  consumed_le : consumed nodes ≤ data.length
  begins : (nodes.filterMap Executed.beginOf).Nodup
  ends : (nodes.filterMap Executed.endOf).Nodup

theorem execution_of_read {env : Environment} {entries : List Entry} {chain : Chain}
    (hchain : SchemeImporter.fromEntries env entries = .ok chain) {nodes : List Executed}
    (hread : readAllAsync debug chain data = .ok nodes) : Execution data nodes := by
  obtain ⟨last, hlast, rfl⟩ := map_ok_iff.mp hread
  obtain ⟨ns, hpath, hrun⟩ := Chain.exists_path chain hlast
  obtain ⟨hbracketed, hbegins, hends⟩ := SchemeImporter.fromEntries_path hchain hpath
  have hstart : Reads data { position := 0, slice := data, nodesQueue := [] } :=
    ⟨trivial, rfl, by simp⟩
  have hreads := hstart.run hbracketed hrun
  obtain ⟨hrunBegins, hrunEnds⟩ := run_ends hrun
  have hposition := hreads.position
  have hleft := hreads.left
  refine ⟨hreads.recorded, by omega, ?_, ?_⟩
  · simpa [hrunBegins, List.nodup_reverse] using hbegins
  · simpa [hrunEnds, List.nodup_reverse] using hends

end Steps

/-! ### One result -/

theorem eq_of_nodup_filterMap {α β : Type*} {sel : α → Option β} {l : List α}
    (h : (l.filterMap sel).Nodup) {a b : α} (ha : a ∈ l) (hb : b ∈ l) {x : β}
    (hax : sel a = some x) (hbx : sel b = some x) : a = b := by
  induction l with
  | nil => cases ha
  | cons c l ih =>
    have hrest : (l.filterMap sel).Nodup :=
      h.sublist ((List.sublist_cons_self c l).filterMap sel)
    have hnot : ∀ d ∈ l, sel c = some x → sel d = some x → False := by
      intro d hd hc hdx
      rw [List.filterMap_cons_some hc] at h
      exact (List.nodup_cons.mp h).1 (List.mem_filterMap.mpr ⟨d, hd, hdx⟩)
    rcases List.mem_cons.mp ha with rfl | hal <;> rcases List.mem_cons.mp hb with rfl | hbl
    · rfl
    · exact (hnot b hbl hax hbx).elim
    · exact (hnot a hal hbx hax).elim
    · exact ih hrest hal hbl

theorem beginOffset_some {path : String} {node : Executed} {offset : ℤ} :
    node.beginOffset path = some offset ↔ node = .begins path offset := by
  cases node <;> simp [Executed.beginOffset]

theorem endOffset_some {path : String} {node : Executed} {offset : ℤ} :
    node.endOffset path = some offset ↔ node = .ends path offset := by
  cases node <;> simp [Executed.endOffset]

theorem findSome?_unique {α β : Type*} {f : α → Option β} {l : List α} {a : α} {x : β}
    (ha : a ∈ l) (hx : f a = some x) (hunique : ∀ b ∈ l, ∀ y, f b = some y → y = x) :
    l.findSome? f = some x := by
  cases h : l.findSome? f with
  | none =>
    have hnone := List.findSome?_eq_none_iff.mp h a ha
    rw [hx] at hnone
    cases hnone
  | some y =>
    obtain ⟨b, hb, hy⟩ := List.exists_of_findSome?_eq_some h
    rw [hunique b hb y hy]

section Results
variable {data : List UInt8} {nodes after before rest : List Executed} {r : NodeResult}

theorem Execution.firstOffset_eq (h : Execution data nodes) {path : String} {first : ℤ}
    (hfirst : .begins path first ∈ nodes) : firstOffset path nodes = first := by
  have hfind : nodes.findSome? (·.beginOffset path) = some first := by
    refine findSome?_unique hfirst (beginOffset_some.mpr rfl) fun node hnode offset hoffset => ?_
    rw [beginOffset_some] at hoffset
    subst hoffset
    have hsame := eq_of_nodup_filterMap h.begins hnode hfirst (x := path) rfl rfl
    cases hsame
    rfl
  rw [firstOffset, hfind]
  rfl

theorem Execution.lastOffset_eq (h : Execution data nodes) {path : String} {last : ℤ}
    (hlast : .ends path last ∈ nodes) : lastOffset path nodes = last := by
  have hfind : nodes.findSome? (·.endOffset path) = some last := by
    refine findSome?_unique hlast (endOffset_some.mpr rfl) fun node hnode offset hoffset => ?_
    rw [endOffset_some] at hoffset
    subst hoffset
    have hsame := eq_of_nodup_filterMap h.ends hnode hlast (x := path) rfl rfl
    cases hsame
    rfl
  rw [lastOffset, hfind]
  rfl

theorem Execution.range (h : Execution data nodes) (hnodes : nodes = after ++ .result r :: before)
    (hfromTo : r.isFromTo) :
    ∃ first last rest, before = .ends r.path last :: rest ∧ .begins r.path first ∈ rest ∧
      last = consumed rest ∧ 0 ≤ first ∧ first ≤ last ∧ last ≤ data.length := by
  have hrecorded := h.recorded
  rw [hnodes] at hrecorded
  obtain ⟨_, hresult⟩ := hrecorded.at
  obtain ⟨⟨last, rest, rfl⟩, ⟨first, hfirst⟩, -⟩ := hresult hfromTo
  have hmem : .begins r.path first ∈ rest := by
    rcases List.mem_cons.mp hfirst with heq | hmem
    · cases heq
    · exact hmem
  have hbehind := hrecorded.behind
  have hlast : last = consumed rest := hbehind.1
  obtain ⟨inner, outer, rfl⟩ := List.append_of_mem hmem
  obtain ⟨_, hbegin⟩ := hbehind.2.at
  have hfirstEq : first = consumed outer := hbegin
  have houter : 0 ≤ consumed outer := consumed_nonneg hbehind.2.behind
  have hinner : consumed (.begins r.path first :: outer) ≤
      consumed (inner ++ .begins r.path first :: outer) := consumed_mono hbehind.2
  have hrest : consumed (.ends r.path last :: (inner ++ .begins r.path first :: outer)) ≤
      consumed nodes := by
    have hsplit : nodes = (after ++ [.result r]) ++
        (.ends r.path last :: (inner ++ .begins r.path first :: outer)) := by simp [hnodes]
    rw [hsplit]
    exact consumed_mono (by simpa using hrecorded)
  have hle := h.consumed_le
  simp only [consumed_cons, Executed.lengthConsumed, Int.zero_add] at hinner hrest
  exact ⟨first, last, _, rfl, hmem, hlast, by omega, by omega, by omega⟩

/-- The result of an item or frame is the bytes between the nodes found for its path. -/
def IsRight (data : List UInt8) (nodes : List Executed) (r : NodeResult) : Prop :=
  r.resultDeepCopy = bytesBetween data (firstOffset r.path nodes) (lastOffset r.path nodes)

theorem bytesBetween_length {first last : ℤ} (hfirst : 0 ≤ first) (hle : first ≤ last)
    (hlast : last ≤ data.length) : ((bytesBetween data first last).length : ℤ) = last - first := by
  rw [bytesBetween, List.length_take, List.length_drop]
  omega

theorem attributes_iff_isRight (h : Execution data nodes) :
    Attributes data nodes ↔ ∀ r, .result r ∈ nodes → r.isFromTo → IsRight data nodes r := by
  refine forall_congr' fun r => forall_congr' fun hr => forall_congr' fun hfromTo => ?_
  obtain ⟨after, before, hnodes⟩ := List.append_of_mem hr
  obtain ⟨first, last, rest, rfl, hfirst, -⟩ := h.range hnodes hfromTo
  have hfirstMem : .begins r.path first ∈ nodes := by simp [hnodes, hfirst]
  have hlastMem : .ends r.path last ∈ nodes := by simp [hnodes]
  constructor
  · intro hall
    rw [IsRight, h.firstOffset_eq hfirstMem, h.lastOffset_eq hlastMem]
    exact hall first last hfirstMem hlastMem
  · intro hright first' last' hfirst' hlast'
    rw [IsRight, h.firstOffset_eq hfirst', h.lastOffset_eq hlast'] at hright
    exact hright

theorem IsRight.length_eq (h : Execution data nodes) (hr : .result r ∈ nodes)
    (hfromTo : r.isFromTo) (hright : IsRight data nodes r) :
    lastOffset r.path nodes - firstOffset r.path nodes = r.length := by
  obtain ⟨after, before, hnodes⟩ := List.append_of_mem hr
  obtain ⟨first, last, rest, hbefore, hfirst, -, hnonneg, hle, hlastLe⟩ := h.range hnodes hfromTo
  have hfirstEq : firstOffset r.path nodes = first :=
    h.firstOffset_eq (by simp [hnodes, hbefore, hfirst])
  have hlastEq : lastOffset r.path nodes = last :=
    h.lastOffset_eq (by simp [hnodes, hbefore])
  have hrecorded := h.recorded
  rw [hnodes] at hrecorded
  obtain ⟨_, hresult⟩ := hrecorded.at
  obtain ⟨-, -, hlength, -⟩ := hresult hfromTo
  rw [IsRight, hfirstEq, hlastEq] at hright
  rw [hlength, hright, bytesBetween_length hnonneg hle hlastLe, hfirstEq, hlastEq]

/-! ### Sums of lengths -/

def lengths (nodes : List Executed) : ℤ := ((tableOfResults nodes).map (·.length)).sum

theorem foldl_int32 (rs : List NodeResult) (a : ℤ) :
    rs.foldl (fun sum r => int32 (sum + r.length)) (int32 a) =
      int32 (a + (rs.map (·.length)).sum) := by
  induction rs generalizing a with
  | nil => simp
  | cons r rs ih =>
    have hadd : int32 (int32 a + r.length) = int32 (a + r.length) := Int.bmod_add_bmod
    rw [List.foldl_cons, hadd, ih, List.map_cons, List.sum_cons, Int.add_assoc]

theorem sumLength_eq (nodes : List Executed) : sumLength nodes = int32 (lengths nodes) := by
  have hfold := foldl_int32 (tableOfResults nodes) 0
  rw [Int.zero_add] at hfold
  exact hfold

theorem lengths_reverse (nodes : List Executed) : lengths nodes.reverse = lengths nodes := by
  unfold lengths tableOfResults
  rw [List.filterMap_reverse, List.map_reverse, List.sum_reverse]

theorem surplus_sum {inner : List Executed}
    (hnested : ∀ r, .result r ∈ inner → r.isFromTo →
      lastOffset r.path nodes - firstOffset r.path nodes = r.length) :
    (inner.map (·.surplus nodes)).sum = lengths inner - consumed inner := by
  induction inner with
  | nil => rfl
  | cons node inner ih =>
    have hrest := ih fun r hr => hnested r (List.mem_cons_of_mem _ hr)
    rw [List.map_cons, List.sum_cons, hrest, consumed_cons]
    cases node with
    | result r =>
      have hlengths : lengths (.result r :: inner) = r.length + lengths inner := by
        simp [lengths, tableOfResults, Executed.result?]
      have hsurplus : (Executed.result r).surplus nodes = r.length := by
        rw [Executed.surplus]
        split_ifs with hfromTo
        · exact hnested r List.mem_cons_self hfromTo
        · rfl
      rw [hlengths, hsurplus]
      simp only [Executed.lengthConsumed]
      omega
    | begins path offset | ends path offset | read value n | «repeat» path value n results
      | linked value | other =>
      have hlengths : ∀ node : Executed, node.result? = none →
          lengths (node :: inner) = lengths inner := by
        intro node hnode
        rw [lengths, tableOfResults, List.filterMap_cons_none hnode]
        rfl
      rw [hlengths _ rfl, Executed.surplus]
      · omega
      · rintro r ⟨⟩

/-! ### The result of one item or frame -/

theorem Execution.not_isEnd (h : Execution data nodes) {path : String} {last : ℤ}
    {inner outer : List Executed}
    (hnodes : nodes = after ++ .ends path last :: (inner ++ outer)) :
    ∀ node ∈ inner, node.isEnd path = false := by
  have hsub : (Executed.ends path last :: inner).Sublist nodes := by
    rw [hnodes]
    exact ((List.sublist_append_left inner outer).cons_cons _).trans
      (List.sublist_append_right after _)
  have hnodup := h.ends.sublist (hsub.filterMap Executed.endOf)
  rw [List.filterMap_cons_some (show (Executed.ends path last).endOf = some path from rfl)] at hnodup
  have hnot := (List.nodup_cons.mp hnodup).1
  intro node hnode
  cases node with
  | ends p offset =>
    have hne : p ≠ path := by
      rintro rfl
      exact hnot (List.mem_filterMap.mpr ⟨_, hnode, rfl⟩)
    simpa [Executed.isEnd] using hne
  | result r | begins p offset | read value n | «repeat» p value n results | linked value
    | other => rfl

theorem take_eq_take_iff {α : Type*} {l : List α} {a b : ℕ} (ha : a ≤ l.length)
    (hb : b ≤ l.length) : l.take a = l.take b ↔ a = b := by
  constructor
  · intro h
    have hlength := congrArg List.length h
    rw [List.length_take, List.length_take] at hlength
    omega
  · rintro rfl
    rfl

/-- As it is collected, the result is right just when the surplus inside vanishes. -/
theorem Execution.isRight_iff (h : Execution data nodes) (hdata : data.length ≤ arrayMaxLength)
    (hnodes : nodes = after ++ .result r :: before) (hfromTo : r.isFromTo)
    (hcollected : fromTo data r.path before = .ok r)
    (hnested : ∀ r', .result r' ∈ before → r'.isFromTo → IsRight data nodes r') :
    IsRight data nodes r ↔ 2 ^ 32 ∣ ((inside r.path before).map (·.surplus nodes)).sum := by
  have hmax : (arrayMaxLength : ℤ) < 2 ^ 31 := by decide
  obtain ⟨first, last, rest, rfl, hfirst, hlast, hnonneg, hle, hlastLe⟩ := h.range hnodes hfromTo
  have hfirstMem : .begins r.path first ∈ nodes := by simp [hnodes, hfirst]
  obtain ⟨walk, hwalk, -, hfits, hlength, hsum, -, -, hslice⟩ := fromTo_ok hcollected
  obtain ⟨seen, outer, hsplit, hreverse, hinner⟩ := walkBack_ok hwalk
  obtain ⟨inner, rfl, rfl⟩ : ∃ inner, seen = .ends r.path last :: inner ∧
      rest = inner ++ .begins r.path walk.1 :: outer := by
    cases seen with
    | nil => cases hsplit
    | cons node inner =>
      obtain ⟨rfl, hrest⟩ := List.cons_eq_cons.mp hsplit
      exact ⟨inner, rfl, hrest⟩
  have hwalkFirst : walk.1 = first := by
    have hother : firstOffset r.path nodes = walk.1 := h.firstOffset_eq (by simp [hnodes])
    rw [← hother, h.firstOffset_eq hfirstMem]
  have hseen : inside r.path (.ends r.path last :: (inner ++ .begins r.path walk.1 :: outer)) =
      .ends r.path last :: inner := by
    rw [inside, ← List.cons_append, List.takeWhile_append_of_pos fun node hnode => by
      simp [hinner node hnode], List.takeWhile_cons_of_neg (by simp [Executed.beginOffset]),
      List.append_nil]
  have hsummed : r.length = int32 (lengths inner) := by
    have hends := h.not_isEnd (show nodes = (after ++ [.result r]) ++ .ends r.path last ::
      (inner ++ .begins r.path walk.1 :: outer) by simp [hnodes])
    rw [hsum, hreverse, List.reverse_cons, List.takeWhile_append_of_pos fun node hnode => by
      simp [hends node (List.mem_reverse.mp hnode)],
      List.takeWhile_cons_of_neg (by simp [Executed.isEnd]), List.append_nil, sumLength_eq,
      lengths_reverse]
  have hrecorded := h.recorded
  rw [hnodes] at hrecorded
  have hbetween : last - first = consumed inner := by
    obtain ⟨_, hbegin⟩ := hrecorded.behind.2.at
    have hwalkEq : walk.1 = consumed outer := hbegin
    rw [hlast, consumed_append, consumed_cons, ← hwalkFirst, hwalkEq]
    simp only [Executed.lengthConsumed]
    omega
  have hlengths : IsRight data nodes r ↔ r.length = last - first := by
    have hlastMem : .ends r.path last ∈ nodes := by simp [hnodes]
    rw [IsRight, h.firstOffset_eq hfirstMem, h.lastOffset_eq hlastMem, hslice,
      hwalkFirst, bytesBetween, take_eq_take_iff (by rw [List.length_drop]; omega)
        (by rw [List.length_drop]; omega)]
    omega
  have hsurplus : (((Executed.ends r.path last :: inner)).map (·.surplus nodes)).sum =
      lengths inner - consumed inner := by
    have hinnerSum : (inner.map (·.surplus nodes)).sum = lengths inner - consumed inner :=
      surplus_sum fun r' hr' hfromTo' =>
        (hnested r' (by simp [hr']) hfromTo').length_eq h (by simp [hnodes, hr']) hfromTo'
    rw [List.map_cons, List.sum_cons, hinnerSum, Executed.surplus]
    · simp [Executed.lengthConsumed]
    · rintro r' ⟨⟩
  rw [hlengths, hseen, hsurplus, hsummed, hbetween, int32_eq_iff (by omega) (by omega)]

/-- Whether the result is right is said by the balance inside it, or by what was written over
it. -/
theorem Execution.inBalance_iff (h : Execution data nodes) (hdata : data.length ≤ arrayMaxLength)
    {front : Option Executed} (hnodes : nodes = after ++ .result r :: before)
    (hfromTo : r.isFromTo) (hrecorded : Recorded data front (.result r) before)
    (hnested : ∀ r', .result r' ∈ before → r'.isFromTo → IsRight data nodes r') :
    InBalance data nodes front (.result r) before ↔ IsRight data nodes r := by
  obtain ⟨-, -, -, hvalue⟩ := hrecorded hfromTo
  cases front with
  | none =>
    have hcollected : fromTo data r.path before = .ok r := hvalue
    simpa [InBalance, hfromTo] using (h.isRight_iff hdata hnodes hfromTo hcollected hnested).symm
  | some next =>
    cases next with
    | linked value =>
      have hwritten : r.resultDeepCopy = value := hvalue
      simp [InBalance, hfromTo, IsRight, hwritten]
    | result r' | begins path offset | ends path offset | read value n
      | «repeat» path value n results | other =>
      have hcollected : fromTo data r.path before = .ok r := hvalue
      simpa [InBalance, hfromTo] using
        (h.isRight_iff hdata hnodes hfromTo hcollected hnested).symm

theorem Execution.balanced_iff (h : Execution data nodes) (hdata : data.length ≤ arrayMaxLength) :
    Everywhere (InBalance data nodes) none nodes ↔
      ∀ r, .result r ∈ nodes → r.isFromTo → IsRight data nodes r := by
  have hall : ∀ (behind : List Executed) (front : Option Executed),
      Everywhere (Recorded data) front behind → (∃ after, nodes = after ++ behind) →
        (Everywhere (InBalance data nodes) front behind ↔
          ∀ r, .result r ∈ behind → r.isFromTo → IsRight data nodes r) := by
    intro behind
    induction behind with
    | nil => simp [Everywhere]
    | cons node behind ih =>
      rintro front ⟨hnode, hbehind⟩ ⟨after, hnodes⟩
      have hrest := ih (some node) hbehind ⟨after ++ [node], by simp [hnodes]⟩
      rw [Everywhere, hrest]
      cases node with
      | result r =>
        constructor
        · rintro ⟨hbalance, hnested⟩ r' hr' hfromTo'
          rcases List.mem_cons.mp hr' with heq | hmem
          · cases heq
            exact (h.inBalance_iff hdata hnodes hfromTo' hnode hnested).mp hbalance
          · exact hnested r' hmem hfromTo'
        · intro hright
          have hnested : ∀ r', .result r' ∈ behind → r'.isFromTo → IsRight data nodes r' :=
            fun r' hr' => hright r' (List.mem_cons_of_mem _ hr')
          refine ⟨?_, hnested⟩
          by_cases hfromTo : r.isFromTo
          · exact (h.inBalance_iff hdata hnodes hfromTo hnode hnested).mpr
              (hright r List.mem_cons_self hfromTo)
          · unfold InBalance
            split <;> simp_all
      | begins path offset | ends path offset | read value n | «repeat» path value n results
        | linked value | other => simp [InBalance]
  exact hall nodes none h.recorded ⟨[], rfl⟩

end Results

/-- Every item and frame gets its bytes just when, inside each of them, the surpluses cancel. -/
theorem attributesBytes_iff (env : Environment) (entries : List Entry) {data : List UInt8}
    (hdata : data.length ≤ arrayMaxLength) :
    AttributesBytes env entries data ↔ Balanced env entries data := by
  refine forall_congr' fun chain => forall_congr' fun hchain => forall_congr' fun nodes =>
    forall_congr' fun hread => ?_
  have h := execution_of_read hchain hread
  rw [attributes_iff_isRight h, h.balanced_iff hdata]

def release : Environment := { debug := false, toLower := id, funcs := fun _ => none }

/-- A frame of an item without fields and a field of two bytes. -/
def emptyItem : List Entry :=
  [.frame "F" [] (.item "F.I" [] .done
    (.typed { typeName := "ushort", path := "F.x", reading := .fixed 2 } .done))]

def emptyItemNodes : List Executed :=
  [.other, .result ⟨"F", true, 2, [7, 9]⟩, .ends "F" 2, .result ⟨"F.x", false, 2, [7, 9]⟩,
    .read [7, 9] 2, .other, .result ⟨"F.I", true, 0, []⟩, .ends "F.I" 0, .begins "F.I" 0,
    .begins "F" 0, .other]

theorem attributesBytes_empty :
    [7, 9, 1].length ≤ arrayMaxLength ∧ AttributesBytes release emptyItem [7, 9, 1] := by
  refine ⟨by decide, (attributesBytes_iff release emptyItem (by decide)).mpr ?_⟩
  intro chain hchain nodes hread
  have hreading : (SchemeImporter.fromEntries release emptyItem).bind
      (fun chain => readAllAsync false chain [7, 9, 1]) = .ok emptyItemNodes := by decide +kernel
  rw [hchain] at hreading
  obtain rfl : nodes = emptyItemNodes := Except.ok.inj (hread.symm.trans hreading)
  simp [emptyItemNodes, Everywhere, InBalance, inside, Executed.surplus, Executed.beginOffset,
    Executed.lengthConsumed, lastOffset, firstOffset, Executed.endOffset]

/-- A frame of one item of one byte. -/
def nestedItem : List Entry :=
  [.frame "F" [] (.item "F.I" []
    (.typed { typeName := "byte", path := "F.I.x", reading := .fixed 1 } .done) .done)]

def nestedItemNodes : List Executed :=
  [.other, .result ⟨"F", true, 2, [7, 9]⟩, .ends "F" 1, .result ⟨"F.I", true, 1, [7]⟩,
    .ends "F.I" 1, .result ⟨"F.I.x", false, 1, [7]⟩, .read [7] 1, .other, .begins "F.I" 0,
    .begins "F" 0, .other]

/-- The frame gets the byte that is read and the one behind it. -/
theorem not_attributesBytes_nested : ¬ AttributesBytes release nestedItem [7, 9] := by
  intro hbytes
  have hright := hbytes _ rfl nestedItemNodes (by decide +kernel) ⟨"F", true, 2, [7, 9]⟩
    (by simp [nestedItemNodes]) rfl 0 1 (by simp [nestedItemNodes]) (by simp [nestedItemNodes])
  revert hright
  decide

end DecodingProxy.MappedFrameReader
