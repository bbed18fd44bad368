import Mathlib.Data.Finset.Card

/-!
# Condition variables

A condition variable is the set of threads asleep on it and the set of threads
that were woken and have not resumed yet. A signal moves one sleeper, if any, to
the woken set, a broadcast moves them all.
-/

namespace UoftOs.Lib

/-- The threads waiting on one condition variable. -/
structure CondVar (T : Type*) where
  asleep : Finset T
  woken : Finset T

namespace CondVar
variable {T : Type*} [DecidableEq T]

def empty : CondVar T := ⟨∅, ∅⟩

/-- `t` goes to sleep. -/
def sleep (c : CondVar T) (t : T) : CondVar T := { c with asleep := insert t c.asleep }

/-- `t` resumes, woken or spuriously. -/
def resume (c : CondVar T) (t : T) : CondVar T := ⟨c.asleep.erase t, c.woken.erase t⟩

def broadcast (c : CondVar T) : CondVar T := ⟨∅, c.woken ∪ c.asleep⟩

/-- The outcomes of a signal: any sleeper is woken, or there is none. -/
inductive Signal (c : CondVar T) : CondVar T → Prop
  | one {t} (h : t ∈ c.asleep) : Signal c ⟨c.asleep.erase t, insert t c.woken⟩
  | none (h : c.asleep = ∅) : Signal c c

/-- No thread is both asleep and woken. -/
def Proper (c : CondVar T) : Prop := Disjoint c.asleep c.woken

/-- The threads waiting, asleep or woken. -/
def waiters (c : CondVar T) : Finset T := c.asleep ∪ c.woken

variable {c c' : CondVar T}

theorem Signal.proper (h : Signal c c') (hc : c.Proper) : c'.Proper := by
  cases h with
  | @one t ht =>
      unfold Proper at *
      rw [Finset.disjoint_insert_right]
      exact ⟨by simp, hc.mono_left (Finset.erase_subset _ _)⟩
  | none _ => exact hc

theorem Signal.waiters (h : Signal c c') : c'.waiters = c.waiters := by
  cases h with
  | @one t ht =>
      ext u
      by_cases hu : u = t
      · simp [CondVar.waiters, hu, ht]
      · simp [CondVar.waiters, hu]
  | none _ => rfl

/-- A signal wakes one more thread unless nobody is asleep afterwards. -/
theorem Signal.card_woken (h : Signal c c') (hc : c.Proper) (hne : c'.asleep.Nonempty) :
    c'.woken.card = c.woken.card + 1 := by
  cases h with
  | @one t ht =>
      exact Finset.card_insert_of_notMem fun hw =>
        absurd hw (Finset.disjoint_left.mp hc ht)
  | none h => simp [h] at hne

theorem Signal.asleep_subset (h : Signal c c') : c'.asleep ⊆ c.asleep := by
  cases h with
  | one => exact Finset.erase_subset _ _
  | none => exact Finset.Subset.refl _

/-- After a signal nobody is asleep or somebody is woken. -/
theorem Signal.woken_nonempty (h : Signal c c') (hne : c'.asleep.Nonempty) :
    c'.woken.Nonempty := by
  cases h with
  | one => exact Finset.insert_nonempty _ _
  | none h => simp [h] at hne

theorem broadcast_proper : c.broadcast.Proper := Finset.disjoint_empty_left _

@[simp] theorem broadcast_asleep : c.broadcast.asleep = ∅ := rfl

@[simp] theorem broadcast_waiters : c.broadcast.waiters = c.waiters := by
  simp [broadcast, waiters, Finset.union_comm]

theorem resume_proper (hc : c.Proper) (t : T) : (c.resume t).Proper :=
  hc.mono (Finset.erase_subset _ _) (Finset.erase_subset _ _)

@[simp] theorem resume_waiters (t : T) : (c.resume t).waiters = c.waiters.erase t := by
  simp [resume, waiters, Finset.erase_union_distrib]

theorem resume_asleep_subset (t : T) : (c.resume t).asleep ⊆ c.asleep := Finset.erase_subset _ _

/-- One thread at most leaves the woken ones. -/
theorem card_woken_le_resume (t : T) : c.woken.card ≤ (c.resume t).woken.card + 1 :=
  Nat.sub_le_iff_le_add.mp Finset.pred_card_le_card_erase

theorem sleep_proper {t : T} (hc : c.Proper) (ht : t ∉ c.woken) : (c.sleep t).Proper := by
  unfold Proper sleep
  rw [Finset.disjoint_insert_left]
  exact ⟨ht, hc⟩

@[simp] theorem sleep_waiters (t : T) : (c.sleep t).waiters = insert t c.waiters := by
  simp [sleep, waiters, Finset.insert_union]

end CondVar

end UoftOs.Lib
