import Mathlib.Logic.Relation

/-!
# Runs of a labelled transition system

A run records the labels of its steps in order. Guarded runs are the runs whose
steps all meet a condition on the state before the step and its label.
-/

namespace UoftOs.Lib.Transition

variable {σ α : Type*}

/-- The runs from `s₀` with the labels of their steps. -/
inductive Run (step : σ → α → σ → Prop) (s₀ : σ) : List α → σ → Prop
  | nil : Run step s₀ [] s₀
  | snoc {as s a t} (run : Run step s₀ as s) (h : step s a t) : Run step s₀ (as ++ [a]) t

/-- The steps of `step` that meet the condition `ok`. -/
def Guarded (step : σ → α → σ → Prop) (ok : σ → α → Prop) (s : σ) (a : α) (t : σ) : Prop :=
  step s a t ∧ ok s a

/-- The runs from `s₀` with the number of their steps that meet `costs`. -/
inductive CountedRun (step : σ → α → σ → Prop) (costs : σ → α → Prop) (s₀ : σ) :
    List α → Nat → σ → Prop
  | nil : CountedRun step costs s₀ [] 0 s₀
  | free {as n s a t} (run : CountedRun step costs s₀ as n s) (h : step s a t)
      (hfree : ¬ costs s a) : CountedRun step costs s₀ (as ++ [a]) n t
  | costs {as n s a t} (run : CountedRun step costs s₀ as n s) (h : step s a t)
      (hcosts : costs s a) : CountedRun step costs s₀ (as ++ [a]) (n + 1) t

variable {step : σ → α → σ → Prop} {ok costs : σ → α → Prop} {s₀ : σ}

/-- A property of history and state that holds initially and is kept by every
step holds at the end of every run. -/
theorem Run.invariant {I : List α → σ → Prop} (hinit : I [] s₀)
    (hstep : ∀ as s a t, I as s → step s a t → I (as ++ [a]) t)
    {as : List α} {s : σ} (run : Run step s₀ as s) : I as s := by
  induction run with
  | nil => exact hinit
  | snoc _ h ih => exact hstep _ _ _ _ ih h

/-- The rule for properties of the state alone. -/
theorem Run.state_invariant {I : σ → Prop} (hinit : I s₀)
    (hstep : ∀ s a t, I s → step s a t → I t)
    {as : List α} {s : σ} (run : Run step s₀ as s) : I s :=
  Run.invariant (I := fun _ => I) hinit (fun _ _ _ _ => hstep _ _ _) run

theorem Run.mono {step' : σ → α → σ → Prop} (h : ∀ s a t, step s a t → step' s a t)
    {as : List α} {s : σ} (run : Run step s₀ as s) : Run step' s₀ as s := by
  induction run with
  | nil => exact Run.nil
  | snoc _ hs ih => exact ih.snoc (h _ _ _ hs)

theorem Run.unguard {as : List α} {s : σ} (run : Run (Guarded step ok) s₀ as s) :
    Run step s₀ as s :=
  run.mono fun _ _ _ h => h.1

/-- When each step has a counterpart from related states, runs have one too. -/
theorem Run.simulation {τ β : Type*} {step' : τ → β → τ → Prop} {t₀ : τ} {label : α → β}
    {R : σ → τ → Prop} (hinit : R s₀ t₀)
    (hstep : ∀ s a s' t, R s t → step s a s' → ∃ t', step' t (label a) t' ∧ R s' t')
    {as : List α} {s : σ} (run : Run step s₀ as s) :
    ∃ t, Run step' t₀ (as.map label) t ∧ R s t := by
  induction run with
  | nil => exact ⟨t₀, .nil, hinit⟩
  | snoc _ h ih =>
      obtain ⟨t, run', hR⟩ := ih
      obtain ⟨t', h', hR'⟩ := hstep _ _ _ t hR h
      refine ⟨t', ?_, hR'⟩
      rw [List.map_append, List.map_singleton]
      exact run'.snoc h'

theorem CountedRun.run {as : List α} {n : Nat} {s : σ} (run : CountedRun step costs s₀ as n s) :
    Run step s₀ as s := by
  induction run with
  | nil => exact .nil
  | free _ h _ ih => exact ih.snoc h
  | costs _ h _ ih => exact ih.snoc h

/-- A measure that no step increases and that each counted step decreases bounds the
number of counted steps. -/
theorem CountedRun.add_le {I : List α → σ → Prop} {measure : σ → Nat} (hinit : I [] s₀)
    (hstep : ∀ as s a t, I as s → step s a t → I (as ++ [a]) t ∧ measure t ≤ measure s ∧
      (costs s a → measure t < measure s))
    {as : List α} {n : Nat} {s : σ} (run : CountedRun step costs s₀ as n s) :
    n + measure s ≤ measure s₀ := by
  have hinv {as : List α} {s : σ} (run : Run step s₀ as s) : I as s :=
    run.invariant hinit fun as s a t hI h => (hstep as s a t hI h).1
  induction run with
  | nil => exact Nat.le_of_eq (Nat.zero_add _)
  | free run h hfree ih =>
      have hle := (hstep _ _ _ _ (hinv run.run) h).2.1
      omega
  | costs run h hcosts ih =>
      have hlt := (hstep _ _ _ _ (hinv run.run) h).2.2 hcosts
      omega

theorem Run.nil_inv {t : σ} (run : Run step s₀ [] t) : t = s₀ := by
  generalize hbs : ([] : List α) = bs at run
  cases run with
  | nil => rfl
  | snoc run h => exact absurd hbs (by simp)

/-- The last step of a run. -/
theorem Run.concat_inv {as : List α} {a : α} {t : σ} (run : Run step s₀ (as ++ [a]) t) :
    ∃ s, Run step s₀ as s ∧ step s a t := by
  generalize hbs : as ++ [a] = bs at run
  cases run with
  | nil => exact absurd hbs (by simp)
  | snoc run h =>
      obtain ⟨rfl, hab⟩ := List.append_inj' hbs rfl
      cases hab
      exact ⟨_, run, h⟩

theorem Run.single_inv {a : α} {t : σ} (run : Run step s₀ [a] t) : step s₀ a t := by
  obtain ⟨s, hnil, h⟩ := Run.concat_inv (show Run step s₀ ([] ++ [a]) t from run)
  rwa [hnil.nil_inv] at h

theorem Run.append {as bs : List α} {s t : σ} (run : Run step s₀ as s) (run' : Run step s bs t) :
    Run step s₀ (as ++ bs) t := by
  induction run' with
  | nil => rwa [List.append_nil]
  | snoc _ h ih =>
      rw [← List.append_assoc]
      exact ih.snoc h

/-- A property that some steps bring about and others undo holds at the end of a run
exactly when a step has brought it about and none has undone it since. -/
theorem Run.since_iff {P : σ → Prop} {sets clears : σ → α → Prop} (hinit : ¬ P s₀)
    (hstep : ∀ as s a t, Run step s₀ as s → step s a t →
      (P t ↔ P s ∧ ¬ clears s a ∨ sets s a))
    {as : List α} {s : σ} (run : Run step s₀ as s) :
    P s ↔ ∃ bs t a u cs, as = bs ++ a :: cs ∧ Run step s₀ bs t ∧ sets t a ∧ step t a u ∧
      Run (Guarded step fun s a => ¬ clears s a) u cs s := by
  constructor
  · intro hp
    induction run with
    | nil => exact absurd hp hinit
    | @snoc as s a t run h ih =>
        rcases (hstep as s a t run h).mp hp with ⟨hs, hkeep⟩ | hset
        · obtain ⟨bs, t', b, u, cs, rfl, hbs, hset, hb, hcs⟩ := ih hs
          exact ⟨bs, t', b, u, cs ++ [a], by simp, hbs, hset, hb, hcs.snoc ⟨h, hkeep⟩⟩
        · exact ⟨as, s, a, t, [], rfl, run, hset, h, .nil⟩
  · rintro ⟨bs, t, a, u, cs, rfl, hbs, hset, ha, hcs⟩
    have hkept : Run step s₀ (bs ++ a :: cs) s ∧ P s := by
      refine Run.invariant (I := fun cs s => Run step s₀ (bs ++ a :: cs) s ∧ P s)
        ⟨hbs.snoc ha, (hstep bs t a u hbs ha).mpr (Or.inr hset)⟩ ?_ hcs
      rintro cs s b t ⟨hrun, hs⟩ ⟨h, hkeep⟩
      refine ⟨?_, (hstep _ s b t hrun h).mpr (Or.inl ⟨hs, hkeep⟩)⟩
      have hnext := hrun.snoc h
      rwa [List.append_assoc, List.cons_append] at hnext
    exact hkept.2

end UoftOs.Lib.Transition
