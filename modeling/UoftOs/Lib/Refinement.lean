import Mathlib.Logic.Relation

/-!
# Refinement of call sequences

A concrete object answers calls from its own state and may fault. It refines an
abstract object when a relation between the states is kept by every admissible
call and the answers agree.
-/

namespace UoftOs.Lib.Refinement

variable {Op Res S A F : Type*}

/-- The answers and the final state of a sequence of calls. -/
def runCalls (exec : Op → S → Except F (Res × S)) : List Op → S → Except F (List Res × S)
  | [], s => .ok ([], s)
  | op :: ops, s =>
      match exec op s with
      | .error f => .error f
      | .ok (r, s') =>
          match runCalls exec ops s' with
          | .error f => .error f
          | .ok (rs, t) => .ok (r :: rs, t)

/-- The answers and the final state of the abstract object. -/
def specCalls (spec : Op → A → Res × A) : List Op → A → List Res × A
  | [], a => ([], a)
  | op :: ops, a =>
      let rest := specCalls spec ops (spec op a).2
      ((spec op a).1 :: rest.1, rest.2)

/-- Every admissible call keeps the relation `R` and answers like the abstract object. -/
def Simulates (exec : Op → S → Except F (Res × S)) (spec : Op → A → Res × A)
    (admissible : Op → Prop) (R : S → A → Prop) : Prop :=
  ∀ op s a, admissible op → R s a →
    ∃ s', exec op s = .ok ((spec op a).1, s') ∧ R s' (spec op a).2

/-- A simulation of single calls is one of call sequences. -/
theorem Simulates.runCalls {exec : Op → S → Except F (Res × S)} {spec : Op → A → Res × A}
    {admissible : Op → Prop} {R : S → A → Prop} (sim : Simulates exec spec admissible R)
    (ops : List Op) (hops : ∀ op ∈ ops, admissible op) {s : S} {a : A} (h : R s a) :
    ∃ s', Refinement.runCalls exec ops s = .ok ((specCalls spec ops a).1, s') ∧
      R s' (specCalls spec ops a).2 := by
  induction ops generalizing s a with
  | nil => exact ⟨s, rfl, h⟩
  | cons op ops ih =>
      obtain ⟨t, hexec, ht⟩ := sim op s a (hops op (by simp)) h
      obtain ⟨s', hrun, hs'⟩ := ih (fun o ho => hops o (by simp [ho])) ht
      exact ⟨s', by simp [Refinement.runCalls, hexec, hrun, specCalls], hs'⟩

end UoftOs.Lib.Refinement
