import DecodingProxy.Lib.Runs
import Mathlib.Data.Fintype.Card
import Mathlib.Data.Set.Finite.Basic
import Mathlib.Logic.Relation
import Mathlib.Order.WellFounded

/-!
# Computations with fuel

A computation that may not end is a function of its fuel, and gives a fault of its own as long as
it has too little. More fuel changes nothing else. One computation behind another ends just when
the first one ends, and the second one from what the first one gives.

Computations that come to others step by step, and get smaller on the way, end unless they come to
one that is stuck. Where nothing gets smaller, but they are finitely many, there must not be a cycle
either.
-/

namespace DecodingProxy.Fuel
open DecodingProxy.Runs Relation

universe v
variable {ε : Type*} {α β : Type v} {out : ε}

/-- `x` has not ended, or is `y`. -/
def Below (out : ε) (x y : Except ε α) : Prop := x = .error out ∨ x = y

theorem Below.refl (x : Except ε α) : Below out x x := .inr rfl

theorem Below.trans {x y z : Except ε α} (hxy : Below out x y) (hyz : Below out y z) :
    Below out x z := by
  rcases hxy with h | rfl
  · exact .inl h
  · exact hyz

theorem Below.bind {x y : Except ε α} {f g : α → Except ε β} (h : Below out x y)
    (hfg : ∀ a, Below out (f a) (g a)) : Below out (x >>= f) (y >>= g) := by
  rcases h with rfl | rfl
  · exact .inl rfl
  · cases x with
    | error e => exact .refl _
    | ok a => exact hfg a

/-- More fuel changes nothing but that the computation may end. -/
def Increasing (out : ε) (f : ℕ → Except ε α) : Prop := ∀ n, Below out (f n) (f (n + 1))

def Ends (out : ε) (f : ℕ → Except ε α) : Prop := ∃ n, f n ≠ .error out

variable {f : ℕ → Except ε α} {g : α → ℕ → Except ε β} {n m : ℕ}

theorem Increasing.le (h : Increasing out f) (hle : n ≤ m) : Below out (f n) (f m) := by
  induction hle with
  | refl => exact .refl _
  | step _ ih => exact ih.trans (h _)

theorem Increasing.eq (h : Increasing out f) (hle : n ≤ m) (hn : f n ≠ .error out) :
    f m = f n := by
  rcases h.le hle with heq | heq
  · exact absurd heq hn
  · exact heq.symm

theorem ends_const {x : Except ε α} : Ends out (fun _ => x) ↔ x ≠ .error out :=
  exists_const ℕ

/-- A round that is left to do does not matter. -/
theorem ends_succ (hzero : f 0 = .error out) : Ends out f ↔ Ends out fun n => f (n + 1) := by
  constructor
  · intro ⟨n, hn⟩
    cases n with
    | zero => exact absurd hzero hn
    | succ n => exact ⟨n, hn⟩
  · intro ⟨n, hn⟩
    exact ⟨n + 1, hn⟩

theorem ends_bind (hf : Increasing out f) (hg : ∀ a, Increasing out (g a)) :
    Ends out (fun n => f n >>= fun a => g a n) ↔
      Ends out f ∧ ∀ n a, f n = .ok a → Ends out (g a) := by
  constructor
  · intro ⟨n, hn⟩
    beta_reduce at hn
    have hfirst : f n ≠ .error out := by
      intro heq
      rw [heq] at hn
      exact hn rfl
    refine ⟨⟨n, hfirst⟩, ?_⟩
    intro m a ha
    refine ⟨n, ?_⟩
    have hsame : f n = .ok a := by
      rcases Nat.le_total n m with hle | hle
      · rw [← hf.eq hle hfirst, ha]
      · rw [hf.eq hle (by rw [ha]; exact nofun), ha]
    rwa [do_of_ok hsame] at hn
  · intro ⟨⟨n, hn⟩, hnext⟩
    cases hfirst : f n with
    | error e =>
      refine ⟨n, ?_⟩
      beta_reduce
      rw [hfirst] at hn ⊢
      exact fun heq => hn (congrArg Except.error (Except.error.inj heq))
    | ok a =>
      obtain ⟨m, hm⟩ := hnext n a hfirst
      refine ⟨max n m, ?_⟩
      have hsame : f (max n m) = .ok a := by
        rw [hf.eq (Nat.le_max_left n m) hn, hfirst]
      beta_reduce
      rw [do_of_ok hsame, (hg a).eq (Nat.le_max_right n m) hm]
      exact hm

/-! ### Results -/

/-- With enough fuel it gives `a`. -/
def Returns (f : ℕ → Except ε α) (a : α) : Prop := ∃ n, f n = .ok a

theorem Increasing.ok_of_le {a : α} (h : Increasing out f) (hle : n ≤ m) (hn : f n = .ok a) :
    f m = .ok a := by
  rw [h.eq hle (by rw [hn]; exact nofun), hn]

theorem Returns.unique {a b : α} (h : Increasing out f) (ha : Returns f a) (hb : Returns f b) :
    a = b := by
  obtain ⟨n, hn⟩ := ha
  obtain ⟨m, hm⟩ := hb
  have hsame := (h.ok_of_le (Nat.le_max_left n m) hn).symm.trans
    (h.ok_of_le (Nat.le_max_right n m) hm)
  exact Except.ok.inj hsame

theorem exists_returns (h : (f n).toOption.isSome) : ∃ a, Returns f a := by
  cases hn : f n with
  | error e =>
    rw [hn] at h
    cases h
  | ok a => exact ⟨a, n, hn⟩

/-- One fault that it ends with, whatever it would have given, is enough. -/
theorem Increasing.not_returns {a : α} {e : ε} {g : α → β} (h : Increasing out f)
    (hn : (f n).map g = .error e) (hne : e ≠ out) : ¬ Returns f a := by
  intro ⟨m, hm⟩
  have hfault : f n = .error e := by
    cases hfn : f n with
    | error e' =>
      rw [hfn] at hn
      exact congrArg Except.error (Except.error.inj hn)
    | ok a =>
      rw [hfn] at hn
      cases hn
  have hends : f n ≠ .error out := by
    rw [hfault]
    exact fun heq => hne (Except.error.inj heq)
  have hsame := (h.eq (Nat.le_max_left n m) hends).symm.trans
    (h.ok_of_le (Nat.le_max_right n m) hm)
  rw [hfault] at hsame
  cases hsame

theorem returns_const {x : Except ε α} {a : α} : Returns (fun _ => x) a ↔ x = .ok a :=
  exists_const ℕ

/-! ### Stuck computations -/

theorem ends_iff_not_stalled {σ κ : Type*} {after : σ → σ → Prop} {stalled ends : σ → Prop}
    {rank : σ → κ} {lt : κ → κ → Prop} (hlt : WellFounded lt)
    (hstall : ∀ p, stalled p → ¬ ends p)
    (hstep : ∀ p, ¬ stalled p → (ends p ↔ ∀ q, after p q → ends q))
    (hrank : ∀ p q, ¬ stalled p → after p q → lt (rank q) (rank p)) (p : σ) :
    ends p ↔ ∀ q, ReflTransGen after p q → ¬ stalled q := by
  constructor
  · intro h q hreaches
    have hends : ends q := by
      induction hreaches with
      | refl => exact h
      | tail _ hafter ih => exact (hstep _ fun hs => hstall _ hs ih).mp ih _ hafter
    exact fun hs => hstall q hs hends
  · intro h
    induction p using (InvImage.wf rank hlt).induction with
    | _ p ih =>
      have hnot := h p .refl
      apply (hstep p hnot).mpr
      intro q hafter
      apply ih q (hrank p q hnot hafter)
      intro r hreaches
      exact h r (hreaches.head hafter)

/-! ### Cycles -/

/-- Where every step costs fuel and only finitely many are not stuck, what comes to no stuck one and
to none twice on one way ends. -/
theorem ends_iff_no_cycle {σ : Type*} {after : σ → σ → Prop} {stalled : σ → Prop}
    (endsAt : ℕ → σ → Prop) (hfinite : {p | ¬ stalled p}.Finite)
    (hdown : ∀ n p, endsAt n p → ¬ stalled p ∧ ∀ q, after p q → ∃ m < n, endsAt m q)
    (hup : ∀ p, ¬ stalled p → (∀ q, after p q → ∃ n, endsAt n q) → ∃ n, endsAt n p) (p : σ) :
    (∃ n, endsAt n p) ↔ ∀ q, ReflTransGen after p q → ¬ stalled q ∧ ¬ TransGen after q q := by
  constructor
  · intro h q hreaches
    have hends : ∃ n, endsAt n q := by
      induction hreaches with
      | refl => exact h
      | tail _ hafter ih =>
        obtain ⟨n, hn⟩ := ih
        obtain ⟨m, -, hm⟩ := (hdown n _ hn).2 _ hafter
        exact ⟨m, hm⟩
    have hless : ∀ n q r, TransGen after q r → endsAt n q → ∃ m < n, endsAt m r := by
      intro n q r hway hn
      induction hway with
      | single hafter => exact (hdown n q hn).2 _ hafter
      | tail _ hafter ih =>
        obtain ⟨k, hk, hends⟩ := ih
        obtain ⟨m, hm, hnext⟩ := (hdown k _ hends).2 _ hafter
        exact ⟨m, hm.trans hk, hnext⟩
    obtain ⟨n, hn⟩ := hends
    refine ⟨(hdown n q hn).1, fun hcycle => ?_⟩
    induction n using Nat.strong_induction_on with
    | _ n ih =>
      obtain ⟨m, hm, hends⟩ := hless n q q hcycle hn
      exact ih m hm hends
  · intro h
    have hsome : Finite {q // ReflTransGen after p q} :=
      (hfinite.subset fun q hq => (h q hq).1).to_subtype
    let before : {q // ReflTransGen after p q} → {q // ReflTransGen after p q} → Prop :=
      fun a b => TransGen after b.1 a.1
    have htrans : IsTrans _ before := ⟨fun _ _ _ hab hbc => hbc.trans hab⟩
    have hirrefl : Std.Irrefl before := ⟨fun a => (h a.1 a.2).2⟩
    have hall : ∀ q : {q // ReflTransGen after p q}, ∃ n, endsAt n q.1 := by
      intro q
      induction q using (Finite.wellFounded_of_trans_of_irrefl before).induction with
      | _ q ih =>
        apply hup q.1 (h q.1 q.2).1
        intro r hafter
        exact ih ⟨r, q.2.tail hafter⟩ (.single hafter)
    exact hall ⟨p, .refl⟩

end DecodingProxy.Fuel
