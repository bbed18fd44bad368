import Mathlib.Data.List.Infix
import Mathlib.Logic.Function.Basic
import UoftOs.Lib.Refinement

/-!
# The mutex validator

The validator keeps the id of the thread inside. `validator_enter` swaps the id of the
caller in, `validator_exit` swaps it out, and a call whose swap fails reports an error.
The reports tell exactly whether two threads have been inside at once.

## Implementation notes

A call is its compare-and-swap: nothing else in it reads or writes the validator. The
delay in `validator_enter` only takes time and is left out.
-/

namespace UoftOs.MsgQueue.Validation

open Lib.Refinement

/-- The name of the data structure and the id of the owner thread, 0 when there is none. -/
structure MutexValidator where
  name : String
  owner : UInt64
  deriving DecidableEq

/-- An error that `report_error` prints. -/
structure Report where
  errno : Nat
  message : String
  deriving DecidableEq

def eperm : Nat := 1

/-- The digits that `%lx` prints. -/
def hex (n : UInt64) : String := String.ofList (Nat.toDigits 16 n.toNat)

/-- `__sync_val_compare_and_swap`: the old value, and the new content of the variable. -/
def valCompareAndSwap (owner old new : UInt64) : UInt64 × UInt64 :=
  (owner, if owner = old then new else owner)

def validatorInit (name : String) : MutexValidator := ⟨name, 0⟩

def validatorEnter (self : UInt64) (validator : MutexValidator) :
    Option Report × MutexValidator :=
  let (owner, stored) := valCompareAndSwap validator.owner 0 self
  (if owner ≠ 0 then
      some ⟨eperm, "validator_enter: " ++ hex self ++ " failed to enter validator " ++
        validator.name ++ " already occupied by " ++ hex owner⟩
    else none,
    { validator with owner := stored })

def validatorExit (self : UInt64) (validator : MutexValidator) :
    Option Report × MutexValidator :=
  let (owner, stored) := valCompareAndSwap validator.owner self 0
  (if owner ≠ self then
      some ⟨eperm, "validator_exit: " ++ hex self ++ " failed to exit validator " ++
        validator.name ++ " actually occupied by " ++ hex owner⟩
    else none,
    { validator with owner := stored })

/-! ## Traces of calls -/

/-- The threads of a process and what `pthread_self` returns in each. -/
structure Threads (T : Type*) where
  self : T → UInt64
  self_ne_zero : ∀ t, self t ≠ 0
  self_injective : Function.Injective self

inductive Call (T : Type*) where
  | enter (t : T)
  | exit (t : T)

variable {T : Type*} [DecidableEq T] (threads : Threads T)

def Call.exec : Call T → MutexValidator → Option Report × MutexValidator
  | .enter t => validatorEnter (threads.self t)
  | .exit t => validatorExit (threads.self t)

/-- What each call of a trace reports, and the validator at its end. -/
def execAll : List (Call T) → MutexValidator → List (Option Report) × MutexValidator :=
  specCalls (Call.exec threads)

/-- The threads inside after a call. -/
def Call.moves (inside : T → Bool) : Call T → T → Bool
  | .enter t => Function.update inside t true
  | .exit t => Function.update inside t false

/-- The threads that have entered and not yet exited. -/
def insideAfter (calls : List (Call T)) : T → Bool := calls.foldl Call.moves fun _ => false

/-- A thread enters from outside and exits from inside. -/
def Call.Fits (inside : T → Bool) : Call T → Prop
  | .enter t => inside t = false
  | .exit t => inside t = true

def AlternatesFrom (inside : T → Bool) : List (Call T) → Prop
  | [] => True
  | c :: calls => c.Fits inside ∧ AlternatesFrom (c.moves inside) calls

/-- Each thread alternates enter and exit, starting with enter. -/
def Alternates : List (Call T) → Prop := AlternatesFrom fun _ => false

def Overlap (inside : T → Bool) : Prop := ∃ t u, t ≠ u ∧ inside t = true ∧ inside u = true

/-- The owner field describes who is inside. -/
def Describes (inside : T → Bool) (validator : MutexValidator) : Prop :=
  (validator.owner = 0 ∧ ∀ u, inside u = false) ∨
    ∃ t, validator.owner = threads.self t ∧ ∀ u, inside u = true ↔ u = t

variable {threads} {inside : T → Bool} {validator : MutexValidator} {c : Call T}
  {calls : List (Call T)}

omit [DecidableEq T] in
theorem Describes.no_overlap (h : Describes threads inside validator) : ¬ Overlap inside := by
  rintro ⟨t, u, hne, ht, hu⟩
  rcases h with ⟨_, hnone⟩ | ⟨s, _, hs⟩
  · rw [hnone t] at ht
    cases ht
  · exact hne (((hs t).mp ht).trans ((hs u).mp hu).symm)

/-- A call reports nothing and the owner field stays right, or two threads are inside. -/
theorem Describes.exec (h : Describes threads inside validator) (hfits : c.Fits inside) :
    ((c.exec threads validator).1 = none ∧
        Describes threads (c.moves inside) (c.exec threads validator).2) ∨
      ((∃ r, (c.exec threads validator).1 = some r) ∧ Overlap (c.moves inside)) := by
  cases c with
  | enter t =>
      have hout : inside t = false := hfits
      rcases h with ⟨howner, hnone⟩ | ⟨s, howner, hs⟩
      · refine .inl ⟨by simp [Call.exec, validatorEnter, valCompareAndSwap, howner], ?_⟩
        refine .inr ⟨t, by simp [Call.exec, validatorEnter, valCompareAndSwap, howner], ?_⟩
        intro u
        by_cases hu : u = t
        · simp [Call.moves, hu]
        · simp [Call.moves, hnone u, hu]
      · have hne : s ≠ t := by
          rintro rfl
          rw [(hs s).mpr rfl] at hout
          cases hout
        have howner_ne : validator.owner ≠ 0 := by
          rw [howner]
          exact threads.self_ne_zero s
        refine .inr ⟨⟨_, by rw [Call.exec, validatorEnter]; exact if_pos howner_ne⟩, s, t, hne, ?_, ?_⟩
        · rw [Call.moves, Function.update_of_ne hne]
          exact (hs s).mpr rfl
        · rw [Call.moves, Function.update_self]
  | exit t =>
      have hin : inside t = true := hfits
      rcases h with ⟨_, hnone⟩ | ⟨s, howner, hs⟩
      · rw [hnone t] at hin
        cases hin
      · obtain rfl : t = s := (hs t).mp hin
        refine .inl ⟨by simp [Call.exec, validatorExit, valCompareAndSwap, howner], ?_⟩
        refine .inl ⟨by simp [Call.exec, validatorExit, valCompareAndSwap, howner], ?_⟩
        intro u
        by_cases hu : u = t
        · simp [Call.moves, hu]
        · rw [Call.moves, Function.update_of_ne hu, Bool.eq_false_iff]
          exact fun htrue => hu ((hs u).mp htrue)

/-- From a validator that describes who is inside, a trace reports an error exactly when
two threads are inside after one of its prefixes. -/
theorem Describes.reports_iff (h : Describes threads inside validator)
    (halt : AlternatesFrom inside calls) :
    (∃ r, some r ∈ (execAll threads calls validator).1) ↔
      ∃ past, past <+: calls ∧ Overlap (past.foldl Call.moves inside) := by
  induction calls generalizing inside validator with
  | nil =>
      constructor
      · rintro ⟨r, hr⟩
        cases hr
      · rintro ⟨past, hpast, hover⟩
        rw [List.prefix_nil.mp hpast] at hover
        exact absurd hover h.no_overlap
  | cons c calls ih =>
      obtain ⟨hfits, hrest⟩ := halt
      rcases h.exec hfits with ⟨hquiet, hnext⟩ | ⟨⟨r, hr⟩, hover⟩
      · have hreports : (∃ r, some r ∈ (execAll threads (c :: calls) validator).1) ↔
            ∃ r, some r ∈ (execAll threads calls (c.exec threads validator).2).1 := by
          simp only [execAll, specCalls, hquiet, List.mem_cons, reduceCtorEq, false_or]
        rw [hreports, ih hnext hrest]
        constructor
        · rintro ⟨past, hpast, hover⟩
          exact ⟨c :: past, List.cons_prefix_cons.mpr ⟨rfl, hpast⟩, hover⟩
        · rintro ⟨past, hpast, hover⟩
          cases past with
          | nil => exact absurd hover h.no_overlap
          | cons d past =>
              obtain ⟨rfl, hle⟩ := List.cons_prefix_cons.mp hpast
              exact ⟨past, hle, hover⟩
      · refine iff_of_true ⟨r, ?_⟩ ⟨[c], List.cons_prefix_cons.mpr ⟨rfl, List.nil_prefix⟩, hover⟩
        rw [execAll, specCalls, hr]
        exact List.mem_cons_self

/-- As long as no error is reported the owner field describes who is inside. -/
theorem Describes.execAll (h : Describes threads inside validator)
    (halt : AlternatesFrom inside calls)
    (hquiet : ∀ r, some r ∉ (execAll threads calls validator).1) :
    Describes threads (calls.foldl Call.moves inside) (execAll threads calls validator).2 := by
  induction calls generalizing inside validator with
  | nil => exact h
  | cons c calls ih =>
      obtain ⟨hfits, hrest⟩ := halt
      rcases h.exec hfits with ⟨_, hnext⟩ | ⟨⟨r, hr⟩, _⟩
      · exact ih hnext hrest fun r hr => hquiet r (List.mem_cons_of_mem _ hr)
      · refine absurd ?_ (hquiet r)
        rw [Validation.execAll, specCalls, hr]
        exact List.mem_cons_self

omit [DecidableEq T] in
theorem describes_init (name : String) :
    Describes threads (fun _ => false) (validatorInit name) :=
  .inl ⟨rfl, fun _ => rfl⟩

/-- An error is reported exactly when at some moment two threads were inside at once. -/
theorem reports_iff_overlap (threads : Threads T) (name : String) {calls : List (Call T)}
    (halt : Alternates calls) :
    (∃ r, some r ∈ (execAll threads calls (validatorInit name)).1) ↔
      ∃ past, past <+: calls ∧ Overlap (insideAfter past) :=
  (describes_init name).reports_iff halt

/-- Two threads with the ids 1 and 2. -/
def twoThreads : Threads Bool where
  self t := if t then 2 else 1
  self_ne_zero := by decide
  self_injective := by
    intro t u h
    revert t u
    decide

/-- The second thread enters before the first one exits. -/
theorem reports_iff_overlap_two :
    ∃ r, some r ∈ (execAll twoThreads [.enter false, .enter true, .exit false, .exit true]
      (validatorInit "ring_buffer")).1 :=
  (reports_iff_overlap twoThreads "ring_buffer" (by simp [Alternates, AlternatesFrom, Call.Fits, Call.moves])).mpr
    ⟨[.enter false, .enter true], ⟨_, rfl⟩, false, true, by decide, rfl, rfl⟩

end UoftOs.MsgQueue.Validation
