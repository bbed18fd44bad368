import UoftOs.MsgQueue.Program

/-!
# The array of a poll call

The loops of `msg_queue_poll` visit the entries with a queue in order and skip
the others; counting changes `revents` only.
-/

namespace UoftOs.MsgQueue

variable {Q : Type}

/-- The backend of entry `i`, if the entry has one. -/
def queueAt (fds : List (PollFd Q)) (i : Nat) : Option Q :=
  (fds[i]?).bind fun fd => fd.queue.map Prod.fst

theorem firstQueue_eq_some {fds : List (PollFd Q)} {i j : Nat} {q : Q}
    (h : firstQueue fds i = some (j, q)) :
    ∃ k, j = i + k ∧ queueAt fds k = some q ∧ ∀ k' < k, queueAt fds k' = none := by
  induction fds generalizing i with
  | nil => cases h
  | cons fd fds ih =>
      unfold firstQueue at h
      cases hq : fd.queue with
      | some handle =>
          rw [hq] at h
          obtain ⟨rfl, rfl⟩ := Prod.mk.inj (Option.some.inj h)
          exact ⟨0, rfl, by simp [queueAt, hq], fun k' hk' => absurd hk' (Nat.not_lt_zero _)⟩
      | none =>
          rw [hq] at h
          obtain ⟨k, rfl, hk, hnone⟩ := ih h
          refine ⟨k + 1, by omega, by simpa [queueAt] using hk, fun k' hk' => ?_⟩
          cases k' with
          | zero => simp [queueAt, hq]
          | succ k' => simpa [queueAt] using hnone k' (by omega)

theorem firstQueue_eq_none {fds : List (PollFd Q)} {i : Nat} (h : firstQueue fds i = none)
    (k : Nat) : queueAt fds k = none := by
  induction fds generalizing i k with
  | nil => rfl
  | cons fd fds ih =>
      unfold firstQueue at h
      cases hq : fd.queue with
      | some handle =>
          rw [hq] at h
          cases h
      | none =>
          rw [hq] at h
          cases k with
          | zero => simp [queueAt, hq]
          | succ k => simpa [queueAt] using ih h k

theorem queueAt_drop (fds : List (PollFd Q)) (i k : Nat) :
    queueAt (fds.drop i) k = queueAt fds (i + k) := by
  simp [queueAt]

/-- The loops stop at the first entry with a queue. -/
theorem nextEntry_eq_some {fds : List (PollFd Q)} {i j : Nat} {q : Q}
    (h : nextEntry fds i = some (j, q)) :
    i ≤ j ∧ queueAt fds j = some q ∧ ∀ k, i ≤ k → k < j → queueAt fds k = none := by
  obtain ⟨k, rfl, hk, hnone⟩ := firstQueue_eq_some h
  rw [queueAt_drop] at hk
  refine ⟨Nat.le_add_right _ _, hk, fun k' hle hlt => ?_⟩
  have := hnone (k' - i) (by omega)
  rwa [queueAt_drop, Nat.add_sub_cancel' hle] at this

theorem nextEntry_eq_none {fds : List (PollFd Q)} {i : Nat} (h : nextEntry fds i = none)
    {k : Nat} (hk : i ≤ k) : queueAt fds k = none := by
  have := firstQueue_eq_none h (k - i)
  rwa [queueAt_drop, Nat.add_sub_cancel' hk] at this

/-- Counting leaves the queues and the requested events of the array alone. -/
theorem countAt_keeps (c : PollCall Q) (numReady i : Nat) (event : CInt) (k : Nat) :
    queueAt (countAt c numReady i event).1.fds k = queueAt c.fds k ∧
      nodeOf (countAt c numReady i event).1 k = nodeOf c k := by
  have hentry (fd : PollFd Q) : (countEntry fd event).1.queue = fd.queue ∧
      (countEntry fd event).1.events = fd.events := by
    unfold countEntry
    split
    · split <;> exact ⟨by simp [*], rfl⟩
    · exact ⟨rfl, rfl⟩
  unfold countAt
  split
  · next fd hfd =>
      obtain ⟨hq, he⟩ := hentry fd
      by_cases hk : k = i
      · subst hk
        obtain ⟨hlt, rfl⟩ := List.getElem?_eq_some_iff.mp hfd
        simp [queueAt, nodeOf, hq, he, hlt]
      · simp [queueAt, nodeOf, List.getElem?_set_ne (Ne.symm hk)]
  · exact ⟨rfl, rfl⟩

end UoftOs.MsgQueue
