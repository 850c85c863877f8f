import DecodingProxy.Lib.Runs

/-!
# Two computations that end alike

Two computations that may fail end alike when they fail with the same error, or both
succeed with related results. The rules follow the way computations are put together,
so that a statement about two runs is proved along their common text.
-/

namespace DecodingProxy.Runs

universe u v w

inductive Alike {ε α β : Type*} (R : α → β → Prop) : Except ε α → Except ε β → Prop
  | error (e : ε) : Alike R (.error e) (.error e)
  | ok {a : α} {b : β} (h : R a b) : Alike R (.ok a) (.ok b)

namespace Alike

theorem of_eq {ε α : Type*} {R : α → α → Prop} (hrefl : ∀ a, R a a) (x : Except ε α) :
    Alike R x x := by
  cases x with
  | error e => exact .error e
  | ok a => exact .ok (hrefl a)

variable {ε : Type u} {α β γ δ : Type v}

theorem bind {R : α → β → Prop} {S : γ → δ → Prop} {x : Except ε α} {y : Except ε β}
    {f : α → Except ε γ} {g : β → Except ε δ} (h : Alike R x y)
    (hfg : ∀ a b, R a b → Alike S (f a) (g b)) : Alike S (x >>= f) (y >>= g) := by
  cases h with
  | error e => exact .error e
  | ok hab => exact hfg _ _ hab

theorem bind_same {S : γ → δ → Prop} {x : Except ε α} {f : α → Except ε γ} {g : α → Except ε δ}
    (hfg : ∀ a, Alike S (f a) (g a)) : Alike S (x >>= f) (x >>= g) :=
  bind (of_eq (fun _ => rfl) x) fun a _ hab => hab ▸ hfg a

theorem ok_behind {R : α → β → Prop} {S : α → γ → Prop} {x : Except ε α} {y : Except ε β}
    {f : β → γ} (h : Alike R x y) (hf : ∀ a b, R a b → S a (f b)) : Alike S x (y >>= fun b => .ok (f b)) := by
  cases h with
  | error e => exact .error e
  | ok hab => exact .ok (hf _ _ hab)

theorem mapM {R : α → β → Prop} {ι : Type w} {f : ι → Except ε α} {g : ι → Except ε β}
    (hfg : ∀ i, Alike R (f i) (g i)) (is : List ι) :
    Alike (List.Forall₂ R) (is.mapM f) (is.mapM g) := by
  induction is with
  | nil => exact .ok .nil
  | cons i is ih =>
    rw [List.mapM_cons, List.mapM_cons]
    refine (hfg i).bind fun a b hab => ih.bind fun as bs habs => ?_
    exact .ok (.cons hab habs)

theorem foldlM {R : α → β → Prop} {ι : Type w} {f : α → ι → Except ε α} {g : β → ι → Except ε β}
    (hfg : ∀ a b i, R a b → Alike R (f a i) (g b i)) (is : List ι) {a : α} {b : β} (h : R a b) :
    Alike R (is.foldlM f a) (is.foldlM g b) := by
  induction is generalizing a b with
  | nil => exact .ok h
  | cons i is ih =>
    rw [List.foldlM_cons, List.foldlM_cons]
    exact (hfg a b i h).bind fun a b hab => ih hab

theorem mono {R S : α → β → Prop} {x : Except ε α} {y : Except ε β} (h : Alike R x y)
    (hRS : ∀ a b, R a b → S a b) : Alike S x y := by
  cases h with
  | error e => exact .error e
  | ok hab => exact .ok (hRS _ _ hab)

theorem mapError {ε' : Type*} {R : α → β → Prop} {x : Except ε α} {y : Except ε β}
    (h : Alike R x y) (f : ε → ε') : Alike R (x.mapError f) (y.mapError f) := by
  cases h with
  | error e => exact .error (f e)
  | ok hab => exact .ok hab

theorem map_eq {R : α → β → Prop} {x : Except ε α} {y : Except ε β} (h : Alike R x y)
    {f : α → γ} {g : β → γ} (hfg : ∀ a b, R a b → f a = g b) : x.map f = y.map g := by
  cases h with
  | error e => rfl
  | ok hab => exact congrArg Except.ok (hfg _ _ hab)

end Alike

end DecodingProxy.Runs
