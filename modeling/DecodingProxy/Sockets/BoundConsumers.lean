import DecodingProxy.Lib.Runs
import DecodingProxy.Sockets.ReaderChain

/-!
# The current reader of a bound consumer

A reader that is disposed gives the consumers in its list to its source, but it does not put them
into the list of the source. When the source is disposed as well, they are left with it.
-/

namespace DecodingProxy.Sockets
open DecodingProxy.Chains DecodingProxy.Runtime DecodingProxy.Runs

inductive BindCall
  | link (call : LinkCall)
  | bind (n : ℕ) (c : ConsumerId)
  deriving DecidableEq, Repr

/-- The readers of a wrap, and the consumers that were ever bound to one of them. -/
structure BindSession where
  wrap : WrapReaders := .start
  bound : List ConsumerId := []

namespace WrapReaders

/-- The argument of the last `SetReader` on the consumer is live or raw. -/
def Served (s : WrapReaders) (c : ConsumerId) : Prop :=
  ∃ r ∈ s.consumers c, r = .raw ∨ (s.readers r).isDisposed = false

instance (s : WrapReaders) (c : ConsumerId) : Decidable (s.Served c) := by
  unfold Served
  infer_instance

variable {rs : List ReaderId} {s t : WrapReaders} {r : ReaderId} {c : ConsumerId}

theorem Holds.served_iff (h : s.Holds rs) :
    s.Served c ↔ ∃ r ∈ s.consumers c, r ∈ ReaderId.raw :: rs := by
  refine exists_congr fun r => and_congr_right fun _ => ?_
  rw [List.mem_cons]
  by_cases hr : r = .raw
  · simp [hr]
  · simp only [hr, false_or]
    exact h.live_iff hr

theorem bind_readers (s : WrapReaders) (r : ReaderId) (c : ConsumerId) (x : ReaderId) :
    ∃ binds, (s.bind r c).readers x = { s.readers x with binds } := by
  by_cases hx : x = r
  · subst hx
    exact ⟨_, set_self _ _ _⟩
  · exact ⟨_, set_of_ne hx _ _⟩

theorem Holds.bind (h : s.Holds rs) (hr : r ∈ rs) (c : ConsumerId) : (s.bind r c).Holds rs := by
  have hdestination : ∀ x, (s.bind r c).destination x = s.destination x := fun x => by
    obtain ⟨binds, hx⟩ := bind_readers s r c x
    simp [WrapReaders.destination, hx]
  have hsource : ∀ x, (s.bind r c).source x = s.source x := fun x => by
    obtain ⟨binds, hx⟩ := bind_readers s r c x
    simp [WrapReaders.source, hx]
  refine ⟨h.chain.congr (fun x _ => hdestination x) fun x _ => hsource x, ?_, h.last, ?_, ?_⟩
  · rw [hsource]
    exact h.first
  · intro x hx
    obtain ⟨binds, hxr⟩ := bind_readers s r c x
    simpa [hxr] using h.live x hx
  · intro x hraw hx
    have hxr : x ≠ r := by
      rintro rfl
      exact hx hr
    exact (set_of_ne hxr _ _).trans (h.dead x hraw hx)

end WrapReaders

namespace BindSession

def step (s : BindSession) : BindCall → Except Fault BindSession
  | .link call => .ok { s with wrap := s.wrap.link call }
  | .bind n c => .ok { wrap := s.wrap.bind (.reader n) c, bound := c :: s.bound }

def AllServed (s : BindSession) : Prop := ∀ c ∈ s.bound, s.wrap.Served c

/-- A reader is live when a consumer is bound to it, and when it is disposed, its list has every
consumer whose current reader it is. -/
def Spares (s : BindSession) : BindCall → Prop
  | .link (.initilize _) => True
  | .link (.dispose n) => ∀ c ∈ s.bound,
    s.wrap.consumers c = some (.reader n) → c ∈ s.wrap.binds (.reader n)
  | .bind n _ => (s.wrap.readers (.reader n)).isDisposed = false

instance (s : BindSession) : Decidable s.AllServed := by
  unfold AllServed
  infer_instance

variable {rs : List ReaderId} {s t : BindSession}

theorem link_initilize_served (h : s.wrap.Holds rs) (hserved : s.AllServed) (n : ℕ) :
    AllServed { s with wrap := s.wrap.link (.initilize n) } := by
  by_cases hn : .reader n ∈ rs
  · rw [WrapReaders.link, h.initilize_live hn]
    exact hserved
  · obtain ⟨t, ht, hholds, hconsumers, -⟩ := h.initilize ReaderId.noConfusion hn
    rw [WrapReaders.link, ht]
    intro c hc
    obtain ⟨r, hr, hmem⟩ := h.served_iff.mp (hserved c hc)
    refine hholds.served_iff.mpr ⟨r, hconsumers ▸ hr, ?_⟩
    rw [← List.cons_append]
    exact List.mem_append_left _ hmem

theorem link_dispose_served_iff (h : s.wrap.Holds rs) (hserved : s.AllServed) (n : ℕ) :
    AllServed { s with wrap := s.wrap.link (.dispose n) } ↔ s.Spares (.link (.dispose n)) := by
  by_cases hn : .reader n ∈ rs
  · obtain ⟨a, t, ht, hholds, ha, hconsumers, -⟩ := h.dispose hn
    rw [WrapReaders.link, ht]
    apply forall₂_congr
    intro c hc
    obtain ⟨r, hr, hmem⟩ := h.served_iff.mp (hserved c hc)
    change t.Served c ↔ _
    rw [hholds.served_iff, hconsumers]
    by_cases hbind : c ∈ s.wrap.binds (.reader n)
    · simp [hbind, List.mem_cons.mp ha]
    · have hkept : r ∈ ReaderId.raw :: rs.erase (.reader n) ↔ r ≠ .reader n := by
        rw [List.mem_cons, h.chain.nodup.of_cons.mem_erase_iff]
        rcases List.mem_cons.mp hmem with rfl | hmem
        · simp
        · simp [hmem, h.not_raw hmem]
      have hr' : s.wrap.consumers c = some r := hr
      simpa [hbind, hr'] using hkept
  · rw [WrapReaders.link, (h.dispose_dead ReaderId.noConfusion hn).2]
    apply iff_of_true hserved
    intro c hc hr
    obtain ⟨r, hr', hmem⟩ := h.served_iff.mp (hserved c hc)
    obtain rfl := Option.some.inj (hr.symm.trans hr')
    simp [hn] at hmem

theorem bind_served_iff (hserved : s.AllServed) (n : ℕ) (c : ConsumerId) :
    AllServed { wrap := s.wrap.bind (.reader n) c, bound := c :: s.bound } ↔
      s.Spares (.bind n c) := by
  have hlive : ∀ r, ((s.wrap.bind (.reader n) c).readers r).isDisposed =
      (s.wrap.readers r).isDisposed := fun r => by
    obtain ⟨binds, hr⟩ := WrapReaders.bind_readers s.wrap (.reader n) c r
    rw [hr]
  have hnew : (s.wrap.bind (.reader n) c).Served c ↔ s.Spares (.bind n c) := by
    have hreader : (s.wrap.bind (.reader n) c).consumers c = some (.reader n) :=
      Function.update_self _ _ _
    simp [WrapReaders.Served, hlive, Spares, hreader]
  refine ⟨fun hall => hnew.mp (hall c List.mem_cons_self), fun hspares x hx => ?_⟩
  by_cases hxc : x = c
  · rw [hxc]
    exact hnew.mpr hspares
  · obtain ⟨r, hr, hor⟩ := hserved x ((List.mem_cons.mp hx).resolve_left hxc)
    exact ⟨r, (Function.update_of_ne hxc _ _).trans hr, by rwa [hlive]⟩

/-- In every run, each consumer that was ever bound has a reader that is live or raw just when
every step of the run spares them. -/
theorem all_served_iff (calls : List BindCall) :
    (∀ s, Reached step {} calls s → s.AllServed) ↔ Along step Spares {} calls := by
  refine reached_iff_along (I := fun s => ∃ rs, s.wrap.Holds rs) ?_ ?_ ?_
    ⟨[], WrapReaders.holds_start⟩ (by simp [AllServed])
  · intro s call _ _
    cases call <;> exact .inl ⟨_, rfl⟩
  · rintro s call t ⟨rs, h⟩ hserved ht hgood
    cases call with
    | link call =>
      cases ht
      exact ⟨_, h.link call⟩
    | bind n c =>
      cases ht
      have hlive := (bind_served_iff hserved n c).mp hgood
      exact ⟨rs, h.bind ((h.live_iff ReaderId.noConfusion).mp hlive) c⟩
  · rintro s call t ⟨rs, h⟩ hserved ht
    cases call with
    | link call =>
      cases ht
      cases call with
      | initilize n => exact iff_of_true (link_initilize_served h hserved n) trivial
      | dispose n => exact link_dispose_served_iff h hserved n
    | bind n c =>
      cases ht
      exact bind_served_iff hserved n c

/-- The second reader hands its consumer over to the first one, which is disposed next. -/
theorem not_all_served_neighbours :
    ¬ ∀ s, Reached step {} [.link (.initilize 1), .link (.initilize 2), .bind 2 7,
      .link (.dispose 2), .link (.dispose 1)] s → s.AllServed := by
  intro h
  exact absurd (h _ (reached_of_run rfl)) (by decide)

end BindSession

end DecodingProxy.Sockets
