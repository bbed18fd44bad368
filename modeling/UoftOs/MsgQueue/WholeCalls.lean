import UoftOs.MsgQueue.Sound

/-!
# Completed calls

`CallRun` follows one call from its first segment to its return, through the steps
of the other threads, and lists the call's own segments.

## Implementation notes

Other threads may break the framing between two segments of a call; a result that
needs it asks for a well-framed ring at the call's own segments only.
-/

namespace UoftOs.MsgQueue.Queue

open Lib.Transition

variable {T : Type} [DecidableEq T] {s : Queue T} {mq : MqBackend Empty}

variable [Build] {t : T} {h : HandleId} {c : Call}

omit [DecidableEq T] [Build] in
/-- The calls of other threads stay as they are over a step. -/
theorem Step.other_call [DecidableEq T] [Build] {l : Label T} {s' : Queue T} (hs : Step s l s')
    (hl : ∀ h' c' seg, l ≠ .segment t h' c' seg) : s'.calls t = s.calls t := by
  cases hs with
  | @segment mq u h' c' seg k k' ha hm hb hn =>
      have hne : t ≠ u := by
        rintro rfl
        exact hl h' c' seg rfl
      exact Function.update_of_ne hne _ _
  | abort => rfl
  | openRefused => rfl
  | «open» => rfl
  | close => rfl
  | closeAbort => rfl

/-- The call has not begun, or it waits. -/
def AtLoop (s : Queue T) (t : T) (h : HandleId) (c : Call) : Prop :=
  s.calls t = none ∧ h ∈ s.handles ∨ s.calls t = some ⟨h, c, .waiting⟩

omit [DecidableEq T] [Build] in
theorem AtLoop.handle_mem [DecidableEq T] (ha : AtLoop s t h c) (hm : Monitored s) :
    h ∈ s.handles := by
  rcases ha with ⟨-, hh⟩ | hc
  · exact hh
  · exact hm.inUse t _ hc

/-- The backend that a segment begins with. -/
theorem Step.begins {seg : Segment Empty} {s' : Queue T} (hs : Step s (.segment t h c seg) s') :
    ∃ mq k, s.mq = some mq ∧ Begins s mq t h c (.ok seg) k := by
  cases hs with
  | segment ha hm hb hn => exact ⟨_, _, hm, hb⟩

/-- A step of the call or of another thread leaves the call where the run needs it. -/
theorem AtLoop.others (ha : AtLoop s t h c) (hp : s.calls t ≠ none) {l : Label T} {s' : Queue T}
    (hs : Step s l s') (hl : ∀ h' c' seg, l ≠ .segment t h' c' seg) : AtLoop s' t h c := by
  rcases ha with ⟨hc, -⟩ | hc
  · exact absurd hc hp
  · exact Or.inr ((hs.other_call hl).trans hc)

end UoftOs.MsgQueue.Queue
