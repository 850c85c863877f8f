import Mathlib.Data.List.Infix

/-!
# Finite runs of a machine whose steps may fail

A machine is a step function into `Except`. A run applies a list of actions in
order and ends with the fault of the first action that fails. The rules below
are the only induction over runs: an invariant is shown for one step and read
off for every state a run reaches, possibly under a condition that every action
of the run meets in the state it is taken in.
-/

namespace DecodingProxy.Runs

universe v
variable {σ α ε : Type*} (step : σ → α → Except ε σ)

def run : σ → List α → Except ε σ
  | s, [] => .ok s
  | s, a :: as => (step s a).bind fun t => run t as

@[simp] theorem run_nil (s : σ) : run step s [] = .ok s := rfl

theorem run_cons (s : σ) (a : α) (as : List α) :
    run step s (a :: as) = (step s a).bind fun t => run step t as := rfl

theorem run_append (s : σ) (as bs : List α) :
    run step s (as ++ bs) = (run step s as).bind fun t => run step t bs := by
  induction as generalizing s with
  | nil => rfl
  | cons a as ih =>
    simp only [List.cons_append, run_cons]
    cases step s a with
    | error e => rfl
    | ok t => exact ih t

theorem run_concat (s : σ) (as : List α) (a : α) :
    run step s (as ++ [a]) = (run step s as).bind fun t => step t a := by
  rw [run_append]
  cases run step s as with
  | error e => rfl
  | ok t =>
    change (step t a).bind .ok = step t a
    cases step t a <;> rfl

variable {step}

theorem bind_ok_iff {β : Type*} {x : Except ε α} {f : α → Except ε β} {b : β} :
    x.bind f = .ok b ↔ ∃ a, x = .ok a ∧ f a = .ok b := by
  cases x with
  | error e => simp [Except.bind]
  | ok a => simp [Except.bind]

theorem do_of_ok {β γ : Type v} {x : Except ε β} {f : β → Except ε γ} {b : β} (h : x = .ok b) :
    (x >>= f) = f b := by
  rw [h]
  rfl

theorem do_ok_iff {β γ : Type v} {x : Except ε β} {f : β → Except ε γ} {c : γ} :
    (x >>= f) = .ok c ↔ ∃ b, x = .ok b ∧ f b = .ok c :=
  bind_ok_iff

theorem map_ok_iff {β γ : Type v} {x : Except ε β} {f : β → γ} {c : γ} :
    x.map f = .ok c ↔ ∃ b, x = .ok b ∧ f b = c := by
  cases x with
  | error e => simp [Except.map]
  | ok b => simp [Except.map]

/-- What can be evaluated of a result, read back. -/
theorem ok_of_toOption_map {β γ : Type*} {x : Except ε β} {f : β → γ} {c : γ}
    (h : x.toOption.map f = some c) : ∃ b, x = .ok b ∧ f b = c := by
  cases x with
  | error e => cases h
  | ok b => exact ⟨b, rfl, Option.some.inj h⟩

theorem mapError_ok_iff {δ β : Type*} {f : ε → δ} {x : Except ε β} {b : β} :
    x.mapError f = .ok b ↔ x = .ok b := by
  cases x <;> simp [Except.mapError]

theorem foldlM_preserves {β : Type*} {γ δ : Type v} {f : γ → δ → Except ε γ} {get : γ → β}
    (hf : ∀ c d c', f c d = .ok c' → get c' = get c) {ds : List δ} {c c' : γ}
    (h : ds.foldlM f c = .ok c') : get c' = get c := by
  induction ds generalizing c with
  | nil => cases h; rfl
  | cons d ds ih =>
    rw [List.foldlM_cons] at h
    obtain ⟨m, hm, hr⟩ := do_ok_iff.mp h
    exact (ih hr).trans (hf c d m hm)

theorem run_cons_ok_iff {s u : σ} {a : α} {as : List α} :
    run step s (a :: as) = .ok u ↔ ∃ t, step s a = .ok t ∧ run step t as = .ok u :=
  bind_ok_iff

theorem run_concat_ok_iff {s u : σ} {as : List α} {a : α} :
    run step s (as ++ [a]) = .ok u ↔ ∃ t, run step s as = .ok t ∧ step t a = .ok u := by
  rw [run_concat, bind_ok_iff]

theorem run_append_ok_iff {s u : σ} {as bs : List α} :
    run step s (as ++ bs) = .ok u ↔ ∃ t, run step s as = .ok t ∧ run step t bs = .ok u := by
  rw [run_append, bind_ok_iff]

theorem run_history {I : List α → σ → Prop} {s : σ} (h0 : I [] s)
    (hstep : ∀ as a t u, I as t → step t a = .ok u → I (as ++ [a]) u)
    {as : List α} {t : σ} (h : run step s as = .ok t) : I as t := by
  induction as using List.reverseRecOn generalizing t with
  | nil => cases h; exact h0
  | append_singleton as a ih =>
    obtain ⟨m, hm, ha⟩ := run_concat_ok_iff.mp h
    exact hstep as a m t (ih hm) ha

variable (step)

/-- `t` is the state after some first part of the run. -/
def Reached (s : σ) (as : List α) (t : σ) : Prop := ∃ bs, bs <+: as ∧ run step s bs = .ok t

/-- Every action of the run meets `C` in the state it is taken in. -/
def Along (C : σ → α → Prop) : σ → List α → Prop
  | _, [] => True
  | s, a :: as => C s a ∧ ∀ t, step s a = .ok t → Along C t as

variable {step}

instance Along.decidable {C : σ → α → Prop} [∀ s a, Decidable (C s a)] :
    (s : σ) → (as : List α) → Decidable (Along step C s as)
  | _, [] => isTrue trivial
  | s, a :: as =>
    match h : step s a with
    | .ok t =>
      have : Decidable (Along step C t as) := Along.decidable t as
      decidable_of_iff (C s a ∧ Along step C t as) (by simp [Along, h])
    | .error _ => decidable_of_iff (C s a) (by simp [Along, h])

theorem along_iff {C : σ → α → Prop} {s : σ} {as : List α} :
    Along step C s as ↔
      ∀ before a, before ++ [a] <+: as → ∀ t, run step s before = .ok t → C t a := by
  induction as generalizing s with
  | nil => simp [Along]
  | cons a as ih =>
    constructor
    · rintro ⟨ha, has⟩ before b hp t ht
      cases before with
      | nil =>
        cases ht
        obtain ⟨rfl, -⟩ := List.cons_prefix_cons.mp hp
        exact ha
      | cons c before =>
        obtain ⟨rfl, hrest⟩ := List.cons_prefix_cons.mp hp
        obtain ⟨m, hm, hr⟩ := run_cons_ok_iff.mp ht
        exact ih.mp (has m hm) before b hrest t hr
    · intro h
      refine ⟨h [] a (by simp) s rfl, fun m hm => ih.mpr fun before b hp t ht => ?_⟩
      exact h (a :: before) b (List.cons_prefix_cons.mpr ⟨rfl, hp⟩) t
        (run_cons_ok_iff.mpr ⟨m, hm, ht⟩)

theorem along_append_iff {C : σ → α → Prop} {s : σ} {as bs : List α} :
    Along step C s (as ++ bs) ↔
      Along step C s as ∧ ∀ t, run step s as = .ok t → Along step C t bs := by
  induction as generalizing s with
  | nil => simp [Along]
  | cons a as ih =>
    simp only [List.cons_append, Along, ih, run_cons_ok_iff, and_assoc]
    refine and_congr_right fun _ => ⟨fun h => ⟨fun t ht => (h t ht).1, ?_⟩, fun h t ht => ?_⟩
    · rintro u ⟨t, ht, hu⟩
      exact (h t ht).2 u hu
    · exact ⟨h.1 t ht, fun u hu => h.2 u ⟨t, ht, hu⟩⟩

theorem along_of_forall {C : σ → α → Prop} {s : σ} {as : List α} (h : ∀ a ∈ as, ∀ t, C t a) :
    Along step C s as := by
  induction as generalizing s with
  | nil => trivial
  | cons a as ih =>
    exact ⟨h a List.mem_cons_self s, fun t _ => ih fun b hb => h b (List.mem_cons_of_mem _ hb)⟩

theorem Along.forall_of_run {C : α → Prop} {s t : σ} {as : List α}
    (h : Along step (fun _ a => C a) s as) (hrun : run step s as = .ok t) : ∀ a ∈ as, C a := by
  induction as generalizing s with
  | nil => simp
  | cons a as ih =>
    obtain ⟨m, hm, hrest⟩ := run_cons_ok_iff.mp hrun
    exact List.forall_mem_cons.mpr ⟨h.1, ih (h.2 m hm) hrest⟩

theorem Along.and {C D : σ → α → Prop} {s : σ} {as : List α} (hC : Along step C s as)
    (hD : Along step D s as) : Along step (fun s a => C s a ∧ D s a) s as := by
  induction as generalizing s with
  | nil => trivial
  | cons a as ih =>
    exact ⟨⟨hC.1, hD.1⟩, fun t ht => ih (hC.2 t ht) (hD.2 t ht)⟩

theorem Along.of_prefix {C : σ → α → Prop} {s : σ} {as bs : List α} (hp : as <+: bs)
    (h : Along step C s bs) : Along step C s as := by
  induction as generalizing s bs with
  | nil => trivial
  | cons a as ih =>
    obtain ⟨cs, rfl⟩ := hp
    exact ⟨h.1, fun t ht => ih ⟨cs, rfl⟩ (h.2 t ht)⟩

theorem Along.run_invariant {C : σ → α → Prop} {I : σ → Prop}
    (hstep : ∀ t a u, I t → C t a → step t a = .ok u → I u)
    {s : σ} {as : List α} {t : σ} (h0 : I s) (hc : Along step C s as)
    (h : run step s as = .ok t) : I t := by
  induction as generalizing s with
  | nil => cases h; exact h0
  | cons a as ih =>
    obtain ⟨m, hm, hr⟩ := run_cons_ok_iff.mp h
    exact ih (hstep s a m h0 hc.1 hm) (hc.2 m hm) hr

/-- What one step preserves under `C` holds in every state a run under `C` reaches. -/
theorem Along.reached_invariant {C : σ → α → Prop} {I : σ → Prop}
    (hstep : ∀ t a u, I t → C t a → step t a = .ok u → I u)
    {s : σ} {as : List α} {t : σ} (h0 : I s) (hc : Along step C s as)
    (h : Reached step s as t) : I t := by
  obtain ⟨bs, hp, hr⟩ := h
  exact Along.run_invariant hstep h0 (hc.of_prefix hp) hr

theorem reached_of_run {s t : σ} {as : List α} (h : run step s as = .ok t) :
    Reached step s as t :=
  ⟨as, List.prefix_rfl, h⟩

theorem reached_nil_iff {s t : σ} : Reached step s [] t ↔ t = s := by
  constructor
  · rintro ⟨bs, hp, hr⟩
    obtain rfl := List.prefix_nil.mp hp
    cases hr
    rfl
  · rintro rfl
    exact ⟨[], List.prefix_rfl, rfl⟩

theorem reached_cons_iff {s t : σ} {a : α} {as : List α} :
    Reached step s (a :: as) t ↔ t = s ∨ ∃ m, step s a = .ok m ∧ Reached step m as t := by
  constructor
  · rintro ⟨bs, hp, hr⟩
    cases bs with
    | nil =>
      cases hr
      exact .inl rfl
    | cons b bs =>
      obtain ⟨rfl, hbs⟩ := List.cons_prefix_cons.mp hp
      obtain ⟨m, hm, hr⟩ := run_cons_ok_iff.mp hr
      exact .inr ⟨m, hm, bs, hbs, hr⟩
  · rintro (rfl | ⟨m, hm, bs, hp, hr⟩)
    · exact ⟨[], List.nil_prefix, rfl⟩
    · exact ⟨a :: bs, List.cons_prefix_cons.mpr ⟨rfl, hp⟩, run_cons_ok_iff.mpr ⟨m, hm, hr⟩⟩

/-- Where a step from a good state leads to a good state just when it meets `C`, the good
runs are those all of whose steps meet `C`. The invariant may rest on the states so far
being good. -/
theorem reached_iff_along {C : σ → α → Prop} {I P : σ → Prop}
    (hstuck : ∀ t a, I t → P t → (∃ u, step t a = .ok u) ∨ C t a)
    (hI : ∀ t a u, I t → P t → step t a = .ok u → P u → I u)
    (hstep : ∀ t a u, I t → P t → step t a = .ok u → (P u ↔ C t a))
    {s : σ} {as : List α} (h0 : I s) (hP : P s) :
    (∀ t, Reached step s as t → P t) ↔ Along step C s as := by
  induction as generalizing s with
  | nil => simp [reached_nil_iff, Along, hP]
  | cons a as ih =>
    constructor
    · intro h
      have hnext : ∀ m, step s a = .ok m → P m := fun m hm =>
        h m (reached_cons_iff.mpr (.inr ⟨m, hm, [], List.nil_prefix, rfl⟩))
      refine ⟨?_, fun m hm => ?_⟩
      · rcases hstuck s a h0 hP with ⟨m, hm⟩ | hc
        · exact (hstep s a m h0 hP hm).mp (hnext m hm)
        · exact hc
      · refine (ih (hI s a m h0 hP hm (hnext m hm)) (hnext m hm)).mp fun u hu => ?_
        exact h u (reached_cons_iff.mpr (.inr ⟨m, hm, hu⟩))
    · rintro ⟨hc, hrest⟩ t ht
      rcases reached_cons_iff.mp ht with rfl | ⟨m, hm, hr⟩
      · exact hP
      · have hPm := (hstep s a m h0 hP hm).mpr hc
        exact (ih (hI s a m h0 hP hm hPm) hPm).mpr (hrest m hm) t hr

variable (step)

/-- No action of the run fails, and every state on the way is a good one. -/
def RunsWell (P : σ → Prop) (s : σ) (as : List α) : Prop :=
  (∃ t, run step s as = .ok t) ∧ ∀ t, Reached step s as t → P t

variable {step}

theorem runsWell_cons_iff {P : σ → Prop} {s : σ} {a : α} {as : List α} :
    RunsWell step P s (a :: as) ↔ P s ∧ ∃ t, step s a = .ok t ∧ RunsWell step P t as := by
  constructor
  · rintro ⟨⟨u, hu⟩, hP⟩
    obtain ⟨t, ht, hrun⟩ := run_cons_ok_iff.mp hu
    refine ⟨hP s (reached_cons_iff.mpr (.inl rfl)), t, ht, ⟨u, hrun⟩, fun v hv => ?_⟩
    exact hP v (reached_cons_iff.mpr (.inr ⟨t, ht, hv⟩))
  · rintro ⟨hs, t, ht, ⟨u, hu⟩, hP⟩
    refine ⟨⟨u, run_cons_ok_iff.mpr ⟨t, ht, hu⟩⟩, fun v hv => ?_⟩
    rcases reached_cons_iff.mp hv with rfl | ⟨m, hm, hv⟩
    · exact hs
    · cases ht.symm.trans hm
      exact hP v hv

/-- Where an allowed step that meets `C` keeps the invariant, and one that does not meet it
fails or leads to a bad state, the runs that go well are those all of whose steps meet `C`. -/
theorem runsWell_iff_along {A C : σ → α → Prop} {I P : σ → Prop} (hP : ∀ s, I s → P s)
    (hkeeps : ∀ s a, I s → A s a → C s a → ∃ t, step s a = .ok t ∧ I t)
    (hbreaks : ∀ s a, I s → A s a → ¬ C s a → ∀ t, step s a = .ok t → ¬ P t)
    {s : σ} {as : List α} (h0 : I s) (hA : Along step A s as) :
    RunsWell step P s as ↔ Along step C s as := by
  induction as generalizing s with
  | nil =>
    refine iff_of_true ⟨⟨s, rfl⟩, fun t ht => ?_⟩ trivial
    rw [reached_nil_iff.mp ht]
    exact hP s h0
  | cons a as ih =>
    rw [runsWell_cons_iff]
    constructor
    · rintro ⟨-, t, ht, hwell⟩
      have hc : C s a := by
        by_contra hc
        exact hbreaks s a h0 hA.1 hc t ht (hwell.2 t ⟨[], List.nil_prefix, rfl⟩)
      obtain ⟨u, hu, hI⟩ := hkeeps s a h0 hA.1 hc
      cases ht.symm.trans hu
      refine ⟨hc, fun v hv => ?_⟩
      cases ht.symm.trans hv
      exact (ih hI (hA.2 t ht)).mp hwell
    · rintro ⟨hc, hrest⟩
      obtain ⟨t, ht, hI⟩ := hkeeps s a h0 hA.1 hc
      exact ⟨hP s h0, t, ht, (ih hI (hA.2 t ht)).mpr (hrest t ht)⟩

end DecodingProxy.Runs
