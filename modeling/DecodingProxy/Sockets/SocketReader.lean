import DecodingProxy.Lib.Chains
import DecodingProxy.Lib.Runs
import DecodingProxy.Runtime.Faults
import Mathlib.Logic.Function.Basic

/-!
# `SocketReader`

The readers of a wrap form a doubly linked list from the raw reader, which reads from the socket,
to the one that the wrap shows. A new reader is put behind the last one and reads from it; a reader
that is disposed hands those who are bound to it over to the one it reads from.
-/

namespace DecodingProxy.Sockets
open DecodingProxy.Chains DecodingProxy.Runtime DecodingProxy.Runs

inductive ReaderId
  /-- The `SockerReaderRawStackable` of the wrap. -/
  | raw
  | reader (n : ℕ)
  deriving DecidableEq, Repr

abbrev ConsumerId := ℕ

structure SocketReader where
  isDisposed : Bool := true
  /-- The reference to the wrap is set. -/
  wrapped : Bool := false
  source : Option ReaderId := none
  destination : Option ReaderId := none
  binds : List ConsumerId := []
  deriving DecidableEq, Repr

/-- The objects of class `SocketReader`, the reader that the wrap shows, and for every consumer
the argument of the last `SetReader` on it. -/
structure WrapReaders where
  readers : ReaderId → SocketReader := fun _ => {}
  reader : Option ReaderId := some .raw
  consumers : ConsumerId → Option ReaderId := fun _ => none

namespace WrapReaders

def exMustBeDisposed : Fault := .thrown .objectDisposed "Object must be disposed for use"
def exAlreadyDisposed : Fault := .thrown .objectDisposed "Object already disposed"

def source (s : WrapReaders) (r : ReaderId) : Option ReaderId := (s.readers r).source
def destination (s : WrapReaders) (r : ReaderId) : Option ReaderId := (s.readers r).destination
def binds (s : WrapReaders) (r : ReaderId) : List ConsumerId := (s.readers r).binds

def set (r : ReaderId) (reader : SocketReader) (s : WrapReaders) : WrapReaders :=
  { s with readers := Function.update s.readers r reader }

def setSource (r : ReaderId) (source : Option ReaderId) (s : WrapReaders) : WrapReaders :=
  s.set r { s.readers r with source }

def setDestination (r : ReaderId) (destination : Option ReaderId) (s : WrapReaders) : WrapReaders :=
  s.set r { s.readers r with destination }

/-- `SocketWrap.SetReader`. -/
def setReader (reader : Option ReaderId) (s : WrapReaders) : WrapReaders := { s with reader }

def initilize (r : ReaderId) (s : WrapReaders) : Except Fault WrapReaders :=
  if (s.readers r).isDisposed = false then .error exMustBeDisposed
  else
    let s := s.set r { s.readers r with isDisposed := false, wrapped := true }
    if r = .raw then .ok s
    else
      match s.reader with
      | none => .error (.raised .nullReference)
      | some source =>
        let s := s.setSource r (some source)
        let s :=
          match s.destination source with
          | some destination =>
            (s.setDestination r (some destination)).setSource destination (some r)
          | none => s.setReader (some r)
        .ok (s.setDestination source (some r))

/-- The consumers that are bound to the reader get its source. -/
def handOver (r : ReaderId) (s : WrapReaders) : WrapReaders :=
  let s := { s with consumers := fun c => if c ∈ s.binds r then s.source r else s.consumers c }
  s.set r { s.readers r with binds := [] }

/-- The neighbours of the reader are linked to each other. -/
def unlink (r : ReaderId) (s : WrapReaders) : Except Fault WrapReaders :=
  match s.destination r with
  | some destination =>
    let s := s.setSource destination (s.source r)
    match s.source r with
    | none => .error (.raised .nullReference)
    | some source => .ok (s.setDestination source (s.destination r))
  | none =>
    if (s.readers r).wrapped = false then .error (.raised .nullReference)
    else
      let s := s.setReader (s.source r)
      match s.source r with
      | none => .error (.raised .nullReference)
      | some source => .ok (s.setDestination source none)

def dispose (r : ReaderId) (s : WrapReaders) : Except Fault WrapReaders := do
  let s ← (s.handOver r).unlink r
  if (s.readers r).isDisposed then .error exAlreadyDisposed
  else
    .ok (s.set r { s.readers r with
      isDisposed := true
      wrapped := false
      destination := none
      source := none })

def bind (r : ReaderId) (c : ConsumerId) (s : WrapReaders) : WrapReaders :=
  let s := s.set r { s.readers r with binds := s.binds r ++ [c] }
  { s with consumers := Function.update s.consumers c (some r) }

/-- The wrap after `Wrap` has initialised its raw reader. -/
def start : WrapReaders where
  readers := Function.update (fun _ => {}) .raw { isDisposed := false, wrapped := true }

/-- The readers of `rs` are initialised and linked to a list behind the raw reader; all others are
as new. -/
structure Holds (rs : List ReaderId) (s : WrapReaders) : Prop where
  chain : Chain s.destination s.source (some .raw) (.raw :: rs)
  first : s.source .raw = none
  last : s.reader = (.raw :: rs).getLast?
  live : ∀ r ∈ rs, (s.readers r).isDisposed = false ∧ (s.readers r).wrapped = true
  dead : ∀ r, r ≠ .raw → r ∉ rs → s.readers r = {}

variable {rs : List ReaderId} {s : WrapReaders} {r x : ReaderId}

@[simp] theorem set_self (r : ReaderId) (reader : SocketReader) (s : WrapReaders) :
    (s.set r reader).readers r = reader := by
  simp [set]

theorem set_of_ne (h : x ≠ r) (reader : SocketReader) (s : WrapReaders) :
    (s.set r reader).readers x = s.readers x := by
  simp [set, h]

@[simp] theorem set_set (r : ReaderId) (a b : SocketReader) (s : WrapReaders) :
    (s.set r a).set r b = s.set r b := by
  simp [set]

theorem holds_start : start.Holds [] := by
  refine ⟨chain_singleton (by simp [start, destination]), by simp [start, source], rfl, by simp, ?_⟩
  intro r hr _
  simp [start, hr]

theorem Holds.not_raw (h : s.Holds rs) (hr : r ∈ rs) : r ≠ .raw := by
  rintro rfl
  exact (List.nodup_cons.mp h.chain.nodup).1 hr

theorem Holds.live_iff (h : s.Holds rs) (hr : r ≠ .raw) :
    (s.readers r).isDisposed = false ↔ r ∈ rs := by
  refine ⟨fun hlive => ?_, fun hmem => (h.live r hmem).1⟩
  by_contra hmem
  rw [h.dead r hr hmem] at hlive
  cases hlive

theorem Holds.initilize_live (h : s.Holds rs) (hr : r ∈ rs) :
    s.initilize r = .error exMustBeDisposed := if_pos (h.live r hr).1

/-! ### Putting a reader in -/

/-- What a new reader `r` behind the reader `l`, which was the last one, leaves behind. -/
structure PutIn (s t : WrapReaders) (l r : ReaderId) : Prop where
  inserted : t.readers r = { isDisposed := false, wrapped := true, source := some l }
  before : t.readers l = { s.readers l with destination := some r }
  others : ∀ x, x ≠ r → x ≠ l → t.readers x = s.readers x
  reader : t.reader = some r

variable {t : WrapReaders} {l : ReaderId}

theorem initilize_putIn (hdead : s.readers r = {}) (hraw : r ≠ .raw) (hreader : s.reader = some l)
    (hend : s.destination l = none) (hne : r ≠ l) :
    ∃ t, s.initilize r = .ok t ∧ PutIn s t l r ∧ t.consumers = s.consumers := by
  set live : SocketReader := { isDisposed := false, wrapped := true } with hlive
  have hset : (s.set r live).setSource r (some l) = s.set r { live with source := some l } := by
    simp [setSource]
  have hlast : (s.set r { live with source := some l }).destination l = none := by
    rw [WrapReaders.destination, set_of_ne hne.symm]
    exact hend
  refine ⟨((s.set r { live with source := some l }).setReader (some r)).set l
    { s.readers l with destination := some r }, ?_, ⟨?_, set_self _ _ _, ?_, rfl⟩, rfl⟩
  · unfold WrapReaders.initilize
    rw [if_neg (by simp [hdead]), if_neg hraw, hdead, show (s.set r _).reader = some l from hreader]
    dsimp only
    rw [← hlive, hset, hlast]
    dsimp only
    rw [setDestination, show ((s.set r _).setReader (some r)).readers l = s.readers l from
      set_of_ne hne.symm _ _]
  · rw [set_of_ne hne]
    exact set_self _ _ _
  · intro x hxr hxl
    rw [set_of_ne hxl]
    exact set_of_ne hxr _ _

theorem PutIn.source (h : PutIn s t l r) (hxr : x ≠ r) : t.source x = s.source x := by
  by_cases hxl : x = l
  · simp [WrapReaders.source, hxl, h.before]
  · simp [WrapReaders.source, h.others x hxr hxl]

theorem PutIn.flags (h : PutIn s t l r) (hxr : x ≠ r) :
    (t.readers x).isDisposed = (s.readers x).isDisposed ∧
      (t.readers x).wrapped = (s.readers x).wrapped := by
  by_cases hxl : x = l
  · simp [hxl, h.before]
  · simp [h.others x hxr hxl]

theorem PutIn.binds (h : PutIn s t l r) (hdead : s.readers r = {}) (x : ReaderId) :
    t.binds x = s.binds x := by
  by_cases hxr : x = r
  · simp [WrapReaders.binds, hxr, h.inserted, hdead]
  · by_cases hxl : x = l
    · simp [WrapReaders.binds, hxl, h.before]
    · simp [WrapReaders.binds, h.others x hxr hxl]

theorem Holds.putIn (h : s.Holds rs) (hraw : r ≠ .raw) (hr : r ∉ rs)
    (hl : (ReaderId.raw :: rs).getLast? = some l) (ht : PutIn s t l r) : t.Holds (rs ++ [r]) := by
  have hout : r ∉ ReaderId.raw :: rs := List.not_mem_cons_of_ne_of_not_mem hraw hr
  have hne : ∀ x ∈ ReaderId.raw :: rs, x ≠ r := fun x hx => ne_of_mem_of_not_mem hx hout
  have hmem : l ∈ ReaderId.raw :: rs := List.mem_of_getLast? hl
  refine ⟨?_, ?_, ?_, fun x hx => ?_, fun x hxraw hx => ?_⟩
  · refine h.chain.push hl hout (fun x hx hxl => ?_) ?_ ?_ (fun x hx => ht.source (hne x hx)) ?_
    · simp [WrapReaders.destination, ht.others x (hne x hx) hxl]
    · simp [WrapReaders.destination, ht.before]
    · simp [WrapReaders.destination, ht.inserted]
    · simp [WrapReaders.source, ht.inserted]
  · rw [ht.source hraw.symm]
    exact h.first
  · rw [ht.reader, ← List.cons_append, List.getLast?_append]
    rfl
  · rcases List.mem_append.mp hx with hx | hx
    · have hflags := ht.flags (hne x (List.mem_cons_of_mem _ hx))
      rw [hflags.1, hflags.2]
      exact h.live x hx
    · obtain rfl := List.mem_singleton.mp hx
      simp [ht.inserted]
  · have hxr : x ≠ r := by
      rintro rfl
      simp at hx
    have hxrs : x ∉ rs := fun hmem => hx (List.mem_append_left _ hmem)
    have hxl : x ≠ l := by
      rintro rfl
      exact (List.mem_cons.mp hmem).elim hxraw hxrs
    rw [ht.others x hxr hxl]
    exact h.dead x hxraw hxrs

/-- The new reader stands behind the last one. -/
theorem Holds.initilize (h : s.Holds rs) (hraw : r ≠ .raw) (hr : r ∉ rs) :
    ∃ t, s.initilize r = .ok t ∧ t.Holds (rs ++ [r]) ∧ t.consumers = s.consumers ∧
      ∀ x, t.binds x = s.binds x := by
  obtain ⟨l, hl⟩ : ∃ l, (ReaderId.raw :: rs).getLast? = some l :=
    ⟨_, List.getLast?_eq_some_getLast (List.cons_ne_nil _ _)⟩
  have hne : r ≠ l := by
    rintro rfl
    exact (List.mem_cons.mp (List.mem_of_getLast? hl)).elim hraw hr
  have hdead := h.dead r hraw hr
  obtain ⟨t, ht, hput, hconsumers⟩ :=
    initilize_putIn hdead hraw (h.last.trans hl) (h.chain.ends l hl) hne
  exact ⟨t, ht, h.putIn hraw hr hl hput, hconsumers, hput.binds hdead⟩

/-! ### Taking a reader out -/

theorem unlink_last {a : ReaderId} (hd : s.destination r = none) (hw : (s.readers r).wrapped = true)
    (hs : s.source r = some a) :
    s.unlink r = .ok ((s.setReader (some a)).setDestination a none) := by
  unfold unlink
  rw [hd]
  dsimp only
  rw [if_neg (by simp [hw]), hs]
  change (match s.source r with
    | none => _
    | some source => _) = _
  rw [hs]

theorem unlink_between {a b : ReaderId} (hd : s.destination r = some b) (hs : s.source r = some a)
    (hb : r ≠ b) :
    s.unlink r = .ok ((s.setSource b (some a)).setDestination a (some b)) := by
  have hreader : (s.setSource b (some a)).readers r = s.readers r := set_of_ne hb _ _
  unfold unlink
  rw [hd]
  dsimp only
  rw [hs]
  have hsource : (s.setSource b (some a)).source r = some a := by
    rw [WrapReaders.source, hreader]
    exact hs
  have hdestination : (s.setSource b (some a)).destination r = some b := by
    rw [WrapReaders.destination, hreader]
    exact hd
  rw [hsource, hdestination]

/-- What a reader `r` that stands behind `a`, and before `b` if there is one, leaves behind. -/
structure TakenOut (s t : WrapReaders) (a r : ReaderId) (b : Option ReaderId) : Prop where
  out : t.readers r = {}
  before : t.readers a = { s.readers a with destination := b }
  after : ∀ x ∈ b, t.readers x = { s.readers x with source := some a }
  others : ∀ x, x ≠ r → x ≠ a → x ∉ b → t.readers x = s.readers x
  reader : t.reader = if b = none then some a else s.reader

variable {a : ReaderId} {b : Option ReaderId}

theorem TakenOut.destination (h : TakenOut s t a r b) (hxr : x ≠ r) (hxa : x ≠ a) :
    t.destination x = s.destination x := by
  by_cases hx : x ∈ b
  · simp [WrapReaders.destination, h.after x hx]
  · simp [WrapReaders.destination, h.others x hxr hxa hx]

theorem TakenOut.source (h : TakenOut s t a r b) (hxr : x ≠ r) (hx : x ∉ b) :
    t.source x = s.source x := by
  by_cases hxa : x = a
  · simp [WrapReaders.source, hxa, h.before]
  · simp [WrapReaders.source, h.others x hxr hxa hx]

theorem TakenOut.flags (h : TakenOut s t a r b) (hxr : x ≠ r) :
    (t.readers x).isDisposed = (s.readers x).isDisposed ∧
      (t.readers x).wrapped = (s.readers x).wrapped := by
  by_cases hxa : x = a
  · simp [hxa, h.before]
  · by_cases hx : x ∈ b
    · simp [h.after x hx]
    · simp [h.others x hxr hxa hx]

theorem TakenOut.binds (h : TakenOut s t a r b) (x : ReaderId) :
    t.binds x = if x = r then [] else s.binds x := by
  unfold WrapReaders.binds
  split
  case isTrue hxr =>
    rw [hxr, h.out]
  case isFalse hxr =>
    by_cases hxa : x = a
    · rw [hxa, h.before]
    · by_cases hx : x ∈ b
      · rw [h.after x hx]
      · rw [h.others x hxr hxa hx]

theorem Holds.takenOut {as before after : List ReaderId} (h : s.Holds (before ++ r :: after))
    (has : .raw :: before = as ++ [a]) (ht : TakenOut s t a r after.head?) :
    t.Holds (before ++ after) := by
  have hall : ReaderId.raw :: (before ++ r :: after) = as ++ a :: r :: after := by
    rw [← List.cons_append, has]
    simp
  have hrest : ReaderId.raw :: (before ++ after) = as ++ a :: after := by
    rw [← List.cons_append, has]
    simp
  have hchain := h.chain
  rw [hall] at hchain
  have hnodup := hchain.nodup
  simp only [List.nodup_append, List.nodup_cons, List.mem_cons] at hnodup
  have hr : r ∉ before ++ after := by
    have := h.chain.nodup
    simp only [List.nodup_append, List.nodup_cons, List.mem_cons, List.mem_append] at this ⊢
    grind
  have hraw : ReaderId.raw ≠ r := (h.not_raw (by simp)).symm
  refine ⟨?_, ?_, ?_, fun x hx => ?_, fun x hxraw hx => ?_⟩
  · rw [hrest]
    cases after with
    | nil =>
      refine hchain.cut (fun x hx => ht.destination (by grind) (by grind)) ?_
        fun x hx => ht.source (by grind) (by simp)
      simp [WrapReaders.destination, ht.before]
    | cons b after =>
      refine hchain.unlink (fun x hx => ht.destination (by grind) (by grind)) ?_
        (fun x hx => ht.source (by grind) (by grind)) ?_
      · simp [WrapReaders.destination, ht.before]
      · simp [WrapReaders.source, ht.after b rfl]
  · rw [ht.source hraw ?_]
    · exact h.first
    · intro hmem
      have hnone : ReaderId.raw ∉ before ++ r :: after := (List.nodup_cons.mp h.chain.nodup).1
      exact hnone (by simp [List.mem_of_mem_head? hmem])
  · rw [ht.reader, hrest]
    cases after with
    | nil => simp
    | cons b after =>
      rw [if_neg (by simp), h.last, hall]
      simp [List.getLast?_append]
  · have hflags := ht.flags (ne_of_mem_of_not_mem hx hr)
    rw [hflags.1, hflags.2]
    apply h.live x
    rcases List.mem_append.mp hx with hx | hx
    · exact List.mem_append_left _ hx
    · exact List.mem_append_right _ (List.mem_cons_of_mem _ hx)
  · by_cases hxr : x = r
    · rw [hxr]
      exact ht.out
    · have hout : x ∉ ReaderId.raw :: (before ++ r :: after) := by
        simp only [List.mem_cons, List.mem_append] at hx ⊢
        tauto
      rw [ht.others x hxr ?_ ?_]
      · exact h.dead x hxraw fun hmem => hout (List.mem_cons_of_mem _ hmem)
      · rintro rfl
        exact hout (by rw [hall]; simp)
      · exact fun hmem => hx (List.mem_append_right _ (List.mem_of_mem_head? hmem))

theorem dispose_takenOut (hlive : (s.readers r).isDisposed = false)
    (hwrapped : (s.readers r).wrapped = true)
    (hsource : s.source r = some a) (hdestination : s.destination r = b) (har : a ≠ r)
    (hb : ∀ x ∈ b, x ≠ r ∧ x ≠ a) :
    ∃ t, s.dispose r = .ok t ∧ TakenOut s t a r b ∧
      t.consumers = fun c => if c ∈ s.binds r then some a else s.consumers c := by
  have hself : (s.handOver r).readers r = { s.readers r with binds := [] } := set_self _ _ _
  have hother : ∀ x, x ≠ r → (s.handOver r).readers x = s.readers x := fun x hx => set_of_ne hx _ _
  have hconsumers : (s.handOver r).consumers =
      fun c => if c ∈ s.binds r then some a else s.consumers c := by
    simp [handOver, WrapReaders.set, hsource]
  have hs : (s.handOver r).source r = some a := by simpa [WrapReaders.source, hself] using hsource
  have hd : (s.handOver r).destination r = b := by
    simpa [WrapReaders.destination, hself] using hdestination
  cases b with
  | none =>
    have hunlink := unlink_last hd (by simpa [hself] using hwrapped) hs
    set u := ((s.handOver r).setReader (some a)).setDestination a none with hu
    have hur : u.readers r = { s.readers r with binds := [] } := by
      rw [hu, setDestination, set_of_ne har.symm]
      exact hself
    refine ⟨u.set r {}, ?_, ⟨set_self _ _ _, ?_, by simp, fun x hxr hxa _ => ?_, rfl⟩, hconsumers⟩
    · unfold WrapReaders.dispose
      rw [do_of_ok hunlink, hur, if_neg (by simp [hlive])]
    · rw [set_of_ne har, hu, setDestination, set_self]
      change { (s.handOver r).readers a with destination := none } = _
      rw [hother a har]
    · rw [set_of_ne hxr, hu, setDestination, set_of_ne hxa]
      exact hother x hxr
  | some b =>
    obtain ⟨hbr, hba⟩ := hb b rfl
    have hunlink := unlink_between hd hs hbr.symm
    set u := ((s.handOver r).setSource b (some a)).setDestination a (some b) with hu
    have hur : u.readers r = { s.readers r with binds := [] } := by
      rw [hu, setDestination, set_of_ne har.symm, setSource, set_of_ne hbr.symm]
      exact hself
    refine ⟨u.set r {}, ?_, ⟨set_self _ _ _, ?_, fun x hx => ?_, fun x hxr hxa hxb => ?_, rfl⟩,
      hconsumers⟩
    · unfold WrapReaders.dispose
      rw [do_of_ok hunlink, hur, if_neg (by simp [hlive])]
    · rw [set_of_ne har, hu, setDestination, set_self, setSource, set_of_ne hba.symm, hother a har]
    · obtain rfl := Option.some.inj hx
      rw [set_of_ne hbr, hu, setDestination, set_of_ne hba, setSource, set_self, hother b hbr]
    · have hxb : x ≠ b := fun h => hxb (h ▸ rfl)
      rw [set_of_ne hxr, hu, setDestination, set_of_ne hxa, setSource, set_of_ne hxb]
      exact hother x hxr

/-- The consumers of a reader that is disposed get the reader before it. -/
theorem Holds.dispose (h : s.Holds rs) (hr : r ∈ rs) :
    ∃ a t, s.dispose r = .ok t ∧ t.Holds (rs.erase r) ∧ a ∈ ReaderId.raw :: rs.erase r ∧
      t.consumers = (fun c => if c ∈ s.binds r then some a else s.consumers c) ∧
      ∀ x, t.binds x = if x = r then [] else s.binds x := by
  obtain ⟨before, after, rfl⟩ := List.append_of_mem hr
  obtain ⟨as, a, has⟩ : ∃ as a, ReaderId.raw :: before = as ++ [a] :=
    ⟨_, _, (List.dropLast_append_getLast (List.cons_ne_nil ReaderId.raw before)).symm⟩
  have hchain := h.chain
  have hnodup := h.chain.nodup
  rw [← List.cons_append, has, List.append_assoc, List.singleton_append] at hchain hnodup
  simp only [List.nodup_append, List.nodup_cons, List.mem_cons] at hnodup
  have hlinks : s.source r = some a ∧ s.destination r = after.head? := by
    cases after with
    | nil => exact hchain.at_end
    | cons b after => exact hchain.around
  have herase : (before ++ r :: after).erase r = before ++ after := by
    have hout : r ∉ before := by
      have hold := (List.nodup_cons.mp h.chain.nodup).2
      simp only [List.nodup_append] at hold
      grind
    rw [List.erase_append_right _ hout, List.erase_cons_head]
  obtain ⟨t, hdispose, htaken, hconsumers⟩ := dispose_takenOut (h.live r hr).1 (h.live r hr).2
    hlinks.1 hlinks.2 (by grind) fun x hx => by
      have hx := List.mem_of_mem_head? hx
      constructor <;> grind
  rw [herase]
  refine ⟨a, t, hdispose, h.takenOut has htaken, ?_, hconsumers, htaken.binds⟩
  rw [← List.cons_append, has]
  simp

end WrapReaders

end DecodingProxy.Sockets
