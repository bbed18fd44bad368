import UoftOs.Lib.Sleepers
import UoftOs.MsgQueue.Remainders
import UoftOs.MsgQueue.Sound

/-!
# The clients of a queue

The calls of a program on one queue, made through the handles it was given. `Clients` keeps
beside the system which handles are open, what each call in progress is for, and the
messages that have passed; `Clients.Starts` says which calls may be made.

## Implementation notes

A call that is not on the queue, and every `msg_queue_poll`, is free. The handles are
numbered in the order in which they are handed out.
-/

namespace UoftOs.MsgQueue

open Lib.Threads Lib.Transition

/-- What a call in progress is for; `closing` has taken the handle away from the others. -/
inductive Use where
  | call (h : HandleId) (c : Call)
  | opening (h : HandleId) (flags : CInt)
  | closing (h : HandleId)

/-- The handle that the call was given. -/
def Use.handle : Use → HandleId
  | .call h _ => h
  | .opening h _ => h
  | .closing h => h

/-- A write that waits for space. -/
def Call.Waits (flags : CInt) : Call → Prop
  | .read .. => True
  | .write .. => hasAny flags msgQueueNonblock = false

/-- The handles of one queue and the calls on it. `stored` is what the call in progress has
put in its caller's buffer. -/
structure Clients (T : Type) where
  handles : Finset HandleId
  next : HandleId
  flags : HandleId → CInt
  uses : T → Option Use
  stored : T → List UInt8
  /-- The messages of the writes that have succeeded. -/
  sent : List (List UInt8)
  /-- The messages that reads have returned. -/
  received : List (List UInt8)

/-- The queue that a statement of a read, write, open or close is about. -/
def Pc.serves {Q : Type} : Pc Q → Option Q
  | .openLock q _ => some q
  | .openTouch q _ => some q
  | .openUnlock q => some q
  | .closeLock q _ => some q
  | .closeTouch q _ => some q
  | .closeLast q => some q
  | .closeNoReaders q => some q
  | .closeWakeWriters q => some q
  | .closeNoWriters q => some q
  | .closeWakeReaders q => some q
  | .closeUnlock q => some q
  | .wakeStart w => some w.q
  | .wakeTest w _ => some w.q
  | .wakeLock w _ => some w.q
  | .wakeSignal w _ => some w.q
  | .wakeUnlock w _ => some w.q
  | .wakeNext w _ => some w.q
  | .wakeDone w => some w.q
  | .readLock c => some c.q
  | .readEof c => some c.q
  | .readTest c => some c.q
  | .readAgain c => some c.q
  | .readWait c => some c.q
  | .readEmpty c => some c.q
  | .readPeek c => some c.q
  | .readTooSmall c => some c.q
  | .readHeader c _ => some c.q
  | .readBody c _ => some c.q
  | .readSignal c _ => some c.q
  | .readEvents c _ => some c.q
  | .writeLock c => some c.q
  | .writeCheck c => some c.q
  | .writeTest c => some c.q
  | .writeWait c => some c.q
  | .writeHeader c => some c.q
  | .writeBody c => some c.q
  | .writeSignal c => some c.q
  | .writeEvents c => some c.q
  | .writeRefuse c => some c.q
  | _ => none

namespace Clients
variable {T Q : Type} [DecidableEq T]

/-- The clients of a queue fresh from `msg_queue_create`. -/
def initial (flags : CInt) : Clients T where
  handles := {0}
  next := 1
  flags := fun _ => flags
  uses := fun _ => none
  stored := fun _ => []
  sent := []
  received := []

/-- The handle is open, and nobody is closing it. -/
def Usable (k : Clients T) (h : HandleId) : Prop :=
  h ∈ k.handles ∧ ∀ u, k.uses u ≠ some (.closing h)

/-- A call starts. -/
def enter (k : Clients T) (t : T) (x : Use) : Clients T :=
  { k with uses := Function.update k.uses t (some x), stored := Function.update k.stored t [] }

/-- The calls on the queue `q`: through a usable handle, with the flags of it, writes of the
length they announce and from handles that wait, and a close when nobody uses the handle. -/
inductive Starts (q : Q) (k : Clients T) (t : T) : Pc Q → Clients T → Prop
  | read {c h} (hq : c.q = q) (hh : k.Usable h) (hf : k.flags h = c.flags) :
      Starts q k t (.readLock c) (k.enter t (.call h (.read c.length c.msgHead)))
  | write {c h} (hq : c.q = q) (hh : k.Usable h) (hf : k.flags h = c.flags)
      (hp : (Call.write c.buffer c.length).WellPassed)
      (hfit : Queue.Call.LengthFits (.write c.buffer c.length))
      (hw : (Call.write c.buffer c.length).Waits c.flags) :
      Starts q k t (.writeLock c) (k.enter t (.call h (.write c.buffer c.length)))
  | open {h flags} (hh : k.Usable h) :
      Starts q k t (.openLock q flags) (k.enter t (.opening h flags))
  | close {h} (hh : h ∈ k.handles) (hfree : ∀ u x, k.uses u = some x → x.handle ≠ h) :
      Starts q k t (.closeLock q (k.flags h)) (k.enter t (.closing h))
  | elsewhere {pc} (hq : pc.serves ≠ some q) : Starts q k t pc k

/-- `msg_queue_open` hands out a handle. -/
def opened (k : Clients T) (t : T) : Clients T :=
  match k.uses t with
  | some (.opening _ flags) =>
      { k with
        handles := insert k.next k.handles
        next := k.next + 1
        flags := Function.update k.flags k.next flags
        uses := Function.update k.uses t none }
  | _ => k

/-- `msg_queue_close` has closed its handle. -/
def closed (k : Clients T) (t : T) : Clients T :=
  match k.uses t with
  | some (.closing h) =>
      { k with handles := k.handles.erase h, uses := Function.update k.uses t none }
  | _ => k

/-- A read or write returns `value`. -/
def returned (k : Clients T) (t : T) (value : Int) : Clients T :=
  match k.uses t with
  | some (.call _ (.read ..)) =>
      { k with
        uses := Function.update k.uses t none
        received := if 0 < value then k.received ++ [k.stored t] else k.received }
  | some (.call _ (.write buffer _)) =>
      { k with
        uses := Function.update k.uses t none
        sent := if value = 0 then k.sent ++ [buffer] else k.sent }
  | _ => k

/-- What a statement on the queue means to the clients. -/
def does [Build] (k : Clients T) (t : T) (mq : MqBackend Node) (pc : Pc Q) : Clients T :=
  match pc with
  | .openUnlock _ => k.opened t
  | .closeLast _ => k.closed t
  | .closeUnlock _ => k.closed t
  | .readAgain _ => k.returned t (-1)
  | .writeRefuse _ => k.returned t (-1)
  | .wakeDone w => k.returned t w.value
  | .readBody _ _ => { k with stored := Function.update k.stored t (pc.stores mq) }
  | _ => k

/-- The clients of `q` after thread `t` has executed the statement `pc`. -/
def after [Build] [DecidableEq Q] (q : Q) (k : Clients T) (t : T) (mq : MqBackend Node)
    (pc : Pc Q) : Clients T :=
  if pc.serves = some q then k.does t mq pc else k

/-- The clients while the system takes a step. -/
inductive Step [Build] [DecidableEq Q] (q : Q) (s : System T Q) (k : Clients T) :
    Label T (Pc Q) → Clients T → Prop
  | start {t pc k'} (h : Starts q k t pc k') : Step q s k (.start t pc) k'
  | runs {t pc} (hpc : s.threads t = .running pc) :
      Step q s k (.step t) (k.after q t (s.objects q) pc)
  | resumes {t pc} (hpc : s.threads t = .woken pc) : Step q s k (.step t) k
  | spurious {t} : Step q s k (.spurious t) k

end Clients

/-! ## Statements and purposes -/

section Purposes
variable {Q : Type}

/-- The last statement of a call that the queue is about. -/
def Pc.Ends : Pc Q → Prop
  | .openUnlock _ => True
  | .closeLast _ => True
  | .closeUnlock _ => True
  | .readAgain _ => True
  | .writeRefuse _ => True
  | .wakeDone _ => True
  | _ => False

/-- An open of a handle with valid flags. -/
def Use.Opening : Use → Prop
  | .opening _ fl => hasAny fl (~~~allFlags) = false
  | _ => False

def Use.Opens (fl : CInt) : Use → Prop
  | .opening _ fl' => fl' = fl ∧ hasAny fl (~~~allFlags) = false
  | _ => False

def Use.Closing : Use → Prop
  | .closing _ => True
  | _ => False

/-- A close of a handle with the flags `fl`; `flags` has the flags of the handles. -/
def Use.Closes (flags : HandleId → CInt) (fl : CInt) : Use → Prop
  | .closing h => flags h = fl
  | _ => False

def Use.Calling : Use → Prop
  | .call .. => True
  | _ => False

def Use.Calls (flags : HandleId → CInt) (fl : CInt) (call : Call) : Use → Prop
  | .call h call' => flags h = fl ∧ call' = call
  | _ => False

/-- What a statement of a call says about the purpose of the call. -/
def Pc.Purpose (flags : HandleId → CInt) : Pc Q → Use → Prop
  | .openLock _ fl => Use.Opens fl
  | .openTouch _ fl => Use.Opens fl
  | .openUnlock _ => Use.Opening
  | .closeLock _ fl => Use.Closes flags fl
  | .closeTouch _ fl => Use.Closes flags fl
  | .closeLast _ => Use.Closing
  | .closeNoReaders _ => Use.Closing
  | .closeWakeWriters _ => Use.Closing
  | .closeNoWriters _ => Use.Closing
  | .closeWakeReaders _ => Use.Closing
  | .closeUnlock _ => Use.Closing
  | .readLock c => Use.Calls flags c.flags (.read c.length c.msgHead)
  | .readEof c => Use.Calls flags c.flags (.read c.length c.msgHead)
  | .readTest c => Use.Calls flags c.flags (.read c.length c.msgHead)
  | .readWait c => Use.Calls flags c.flags (.read c.length c.msgHead)
  | .writeLock c => Use.Calls flags c.flags (.write c.buffer c.length)
  | .writeCheck c => Use.Calls flags c.flags (.write c.buffer c.length)
  | .writeTest c => Use.Calls flags c.flags (.write c.buffer c.length)
  | .writeWait c => Use.Calls flags c.flags (.write c.buffer c.length)
  | _ => Use.Calling

theorem Use.Opens.opening {fl : CInt} {x : Use} (h : x.Opens fl) : x.Opening := by
  cases x with
  | opening h' fl' =>
      obtain ⟨rfl, hvalid⟩ := h
      exact hvalid
  | call => exact h.elim
  | closing => exact h.elim

theorem Use.Closes.closing {flags : HandleId → CInt} {fl : CInt} {x : Use}
    (h : x.Closes flags fl) : x.Closing := by
  cases x with
  | closing h' => trivial
  | call => exact h.elim
  | opening => exact h.elim

theorem Use.Calls.calling {flags : HandleId → CInt} {fl : CInt} {call : Call} {x : Use}
    (h : x.Calls flags fl call) : x.Calling := by
  cases x with
  | call h' call' => trivial
  | closing => exact h.elim
  | opening => exact h.elim

/-- A read has come to its message, or a call to `helper_wakeup`. -/
def Pc.Stored : Pc Q → Prop
  | .readSignal .. => True
  | .readEvents .. => True
  | .wakeStart _ => True
  | .wakeTest .. => True
  | .wakeLock .. => True
  | .wakeSignal .. => True
  | .wakeUnlock .. => True
  | .wakeNext .. => True
  | .wakeDone _ => True
  | _ => False

/-- The statements of a read that goes on without the mutex. -/
def Pc.Unguarded : Pc Q → Prop
  | .wakeStart w => w.early = true
  | .wakeTest w _ => w.early = true
  | .wakeLock w _ => w.early = true
  | .wakeSignal w _ => w.early = true
  | .wakeUnlock w _ => w.early = true
  | .wakeNext w _ => w.early = true
  | .wakeDone w => w.early = true
  | .readHeader _ early => early = true
  | .readBody _ early => early = true
  | .readSignal _ early => early = true
  | .readEvents _ early => early = true
  | _ => False

/-- The size check in which a read releases the mutex. -/
def Pc.Unlocks : Pc Q → Prop
  | .readTooSmall _ => True
  | _ => False

variable [Build]

/-- What one statement of a call hands to the next. -/
structure Pc.Follows (pc next : Pc Q) : Prop where
  ends : pc.Ends → next.serves = none
  serves : ¬ pc.Ends → next.serves = pc.serves
  purpose : ¬ pc.Ends → pc.serves ≠ none → ∀ flags x, pc.Purpose flags x → next.Purpose flags x
  checked : pc.Checked → next.Checked
  stored : ¬ next.Stored → next.serves ≠ none → ¬ pc.Stored ∧ ∀ mq, pc.stores mq = []
  early : ¬ pc.Unguarded → ¬ pc.Unlocks → ¬ next.Unguarded

/-- The statements of no read, write, open or close. -/
def Pc.Away (pc : Pc Q) : Prop := pc.serves = none ∧ pc.Checked ∧ ¬ pc.Unguarded

omit [Build] in
theorem countFrom_away (c : PollCall Q) (again : Bool) (numReady i : Nat) :
    (countFrom c again numReady i).Away := by
  unfold countFrom
  split
  · exact ⟨rfl, trivial, id⟩
  · split <;> exact ⟨rfl, trivial, id⟩

omit [Build] in
theorem registerFrom_away (c : PollCall Q) (i : Nat) : (registerFrom c i).Away := by
  unfold registerFrom
  split
  · exact ⟨rfl, trivial, id⟩
  · exact countFrom_away ..

omit [Build] in
theorem unregisterFrom_away (c : PollCall Q) (numReady i : Nat) :
    (unregisterFrom c numReady i).Away := by
  unfold unregisterFrom
  split <;> exact ⟨rfl, trivial, id⟩

theorem follows_away {pc next : Pc Q} (h : pc.serves = none) (hn : next.Away) :
    pc.Follows next where
  ends _ := hn.1
  serves _ := hn.1.trans h.symm
  purpose _ hs := absurd h hs
  checked _ := hn.2.1
  stored _ hs := absurd hn.1 hs
  early _ _ := hn.2.2

/-- A statement that is followed by one with the same purpose. -/
theorem follows_same {pc next : Pc Q} (he : ¬ pc.Ends) (hs : next.serves = pc.serves)
    (hp : ∀ flags x, pc.Purpose flags x → next.Purpose flags x) (hc : next.Checked)
    (hst : ¬ next.Stored → ¬ pc.Stored ∧ ∀ mq, pc.stores mq = [])
    (hearly : ¬ pc.Unguarded → ¬ pc.Unlocks → ¬ next.Unguarded) : pc.Follows next :=
  ⟨fun h => absurd h he, fun _ => hs, fun _ _ => hp, fun _ => hc, fun h _ => hst h, hearly⟩

theorem follows_lock {pc next : Pc Q} {m : Mutex Q} (hc : code pc = .lock m next) :
    pc.Follows next := by
  cases pc <;> simp only [code, Instr.lock.injEq, reduceCtorEq] at hc <;>
    obtain ⟨rfl, rfl⟩ := hc
  case pollLock c => exact follows_away rfl (registerFrom_away ..)
  all_goals
    constructor <;> simp [Pc.Ends, Pc.serves, Pc.Purpose, Pc.Checked, Pc.Stored, Pc.stores,
      Pc.Unguarded, Pc.Unlocks]

theorem follows_unlock {pc next : Pc Q} {m : Mutex Q} (hc : code pc = .unlock m next) :
    pc.Follows next := by
  cases pc <;> simp only [code, Instr.unlock.injEq, reduceCtorEq] at hc <;>
    obtain ⟨rfl, rfl⟩ := hc
  case pollLinked c i q => exact follows_away rfl (registerFrom_away ..)
  case pollUnlock c numReady => exact follows_away rfl (unregisterFrom_away ..)
  case pollUnlinked c numReady i q => exact follows_away rfl (unregisterFrom_away ..)
  all_goals
    constructor <;> simp [Pc.Ends, Pc.serves, Pc.Purpose, Pc.Checked, Pc.Stored, Pc.stores,
      Pc.Unguarded, Pc.Unlocks]

theorem follows_wait {pc next : Pc Q} {m : Mutex Q} {c : CondId Q}
    (hc : code pc = .wait c m next) : pc.Follows next := by
  cases pc <;> simp only [code, Instr.wait.injEq, reduceCtorEq] at hc <;>
    obtain ⟨rfl, rfl, rfl⟩ := hc
  case pollWait c => exact follows_away rfl (countFrom_away ..)
  all_goals
    constructor <;> simp [Pc.Ends, Pc.serves, Pc.Purpose, Pc.Checked, Pc.Stored, Pc.stores,
      Pc.Unguarded, Pc.Unlocks]

theorem follows_signal {pc next : Pc Q} {c : CondId Q} (hc : code pc = .signal c next) :
    pc.Follows next := by
  cases pc <;> simp only [code, Instr.signal.injEq, reduceCtorEq] at hc <;>
    obtain ⟨rfl, rfl⟩ := hc
  case writeSignal c =>
    split <;> constructor <;> simp [Pc.Ends, Pc.serves, Pc.Purpose, Pc.Checked, Pc.Stored,
      Pc.stores, Pc.Unguarded, Pc.Unlocks]
  all_goals
    constructor <;> simp [Pc.Ends, Pc.serves, Pc.Purpose, Pc.Checked, Pc.Stored, Pc.stores,
      Pc.Unguarded, Pc.Unlocks]

theorem follows_broadcast {pc next : Pc Q} {c : CondId Q} (hc : code pc = .broadcast c next) :
    pc.Follows next := by
  cases pc <;> simp only [code, Instr.broadcast.injEq, reduceCtorEq] at hc <;>
    obtain ⟨rfl, rfl⟩ := hc
  all_goals
    constructor <;> simp [Pc.Ends, Pc.serves, Pc.Purpose, Pc.Checked, Pc.Stored, Pc.stores,
      Pc.Unguarded, Pc.Unlocks]

theorem follows_access {pc next : Pc Q} {q : Q}
    {f : MqBackend Node → Except Fault (MqBackend Node × Pc Q)} {mq mq' : MqBackend Node}
    (hc : code pc = .access q f) (hf : f mq = .ok (mq', next)) : pc.Follows next := by
  cases pc <;> simp only [code, Instr.access.injEq, reduceCtorEq] at hc <;>
    obtain ⟨rfl, rfl⟩ := hc
  case closeTouch q flags =>
    obtain ⟨⟨last, mq₁⟩, -, hf⟩ := except_bind_ok hf
    obtain ⟨-, rfl⟩ := Prod.mk.inj (Except.ok.inj hf)
    cases last <;>
      exact follows_same id rfl (fun _ _ => Use.Closes.closing) trivial
        (fun _ => ⟨id, fun _ => rfl⟩) fun _ _ => id
  case openTouch q flags =>
    obtain ⟨-, rfl⟩ := Prod.mk.inj (Except.ok.inj hf)
    exact follows_same id rfl (fun _ _ => Use.Opens.opening) trivial
      (fun _ => ⟨id, fun _ => rfl⟩) fun _ _ => id
  case closeNoReaders q =>
    dsimp only at hf
    split at hf <;> obtain ⟨-, rfl⟩ := Prod.mk.inj (Except.ok.inj hf) <;>
      exact follows_same id rfl (fun _ _ => id) trivial (fun _ => ⟨id, fun _ => rfl⟩) fun _ _ => id
  case closeNoWriters q =>
    dsimp only at hf
    split at hf <;> obtain ⟨-, rfl⟩ := Prod.mk.inj (Except.ok.inj hf) <;>
      exact follows_same id rfl (fun _ _ => id) trivial (fun _ => ⟨id, fun _ => rfl⟩) fun _ _ => id
  case wakeStart w =>
    obtain ⟨-, rfl⟩ := Prod.mk.inj (Except.ok.inj hf)
    split <;>
      exact follows_same id rfl (fun _ _ => id) trivial (fun h => absurd trivial h) fun h _ => h
  case wakeTest w n =>
    obtain ⟨-, rfl⟩ := Prod.mk.inj (Except.ok.inj hf)
    split <;>
      exact follows_same id rfl (fun _ _ => id) trivial (fun h => absurd trivial h) fun h _ => h
  case wakeNext w n =>
    obtain ⟨next', -, hf⟩ := except_bind_ok hf
    cases next' <;> obtain ⟨-, rfl⟩ := Prod.mk.inj (Except.ok.inj hf) <;>
      exact follows_same id rfl (fun _ _ => id) trivial (fun h => absurd trivial h) fun h _ => h
  case readEof c =>
    dsimp only at hf
    split at hf <;> obtain ⟨-, rfl⟩ := Prod.mk.inj (Except.ok.inj hf)
    · exact follows_same id rfl (fun _ _ => Use.Calls.calling) trivial
        (fun h => absurd trivial h) fun _ _ => Bool.noConfusion
    · exact follows_same id rfl (fun _ _ => id) trivial (fun _ => ⟨id, fun _ => rfl⟩) fun _ _ => id
  case readTest c =>
    dsimp only at hf
    split at hf <;> obtain ⟨-, rfl⟩ := Prod.mk.inj (Except.ok.inj hf)
    · split
      · exact follows_same id rfl (fun _ _ => Use.Calls.calling) trivial
          (fun _ => ⟨id, fun _ => rfl⟩) fun _ _ => id
      · exact follows_same id rfl (fun _ _ => id) trivial (fun _ => ⟨id, fun _ => rfl⟩)
          fun _ _ => id
    · exact follows_same id rfl (fun _ _ => Use.Calls.calling) trivial
        (fun _ => ⟨id, fun _ => rfl⟩) fun _ _ => id
  case readEmpty c =>
    dsimp only at hf
    split at hf <;> obtain ⟨-, rfl⟩ := Prod.mk.inj (Except.ok.inj hf)
    · exact follows_same id rfl (fun _ _ => id) trivial (fun h => absurd trivial h)
        fun _ _ => Bool.noConfusion
    · exact follows_same id rfl (fun _ _ => id) trivial (fun _ => ⟨id, fun _ => rfl⟩) fun _ _ => id
  case readPeek c =>
    obtain ⟨⟨header, rb⟩, -, hf⟩ := except_bind_ok hf
    obtain ⟨-, rfl⟩ := Prod.mk.inj (Except.ok.inj hf)
    split
    · exact follows_same id rfl (fun _ _ => id) trivial (fun _ => ⟨id, fun _ => rfl⟩) fun _ _ => id
    · exact follows_same id rfl (fun _ _ => id) trivial (fun _ => ⟨id, fun _ => rfl⟩)
        fun _ _ => Bool.noConfusion
  case readHeader c early =>
    obtain ⟨⟨header, rb⟩, -, hf⟩ := except_bind_ok hf
    obtain ⟨-, rfl⟩ := Prod.mk.inj (Except.ok.inj hf)
    exact follows_same id rfl (fun _ _ => id) trivial (fun _ => ⟨id, fun _ => rfl⟩) fun h _ => h
  case readBody c early =>
    obtain ⟨⟨body, rb⟩, -, hf⟩ := except_bind_ok hf
    obtain ⟨-, rfl⟩ := Prod.mk.inj (Except.ok.inj hf)
    exact follows_same id rfl (fun _ _ => id) trivial (fun h => absurd trivial h) fun h _ => h
  case readEvents c early =>
    obtain ⟨-, rfl⟩ := Prod.mk.inj (Except.ok.inj hf)
    exact follows_same id rfl (fun _ _ => id) trivial (fun h => absurd trivial h) fun h _ => h
  case writeCheck c =>
    obtain ⟨-, rfl⟩ := Prod.mk.inj (Except.ok.inj hf)
    split
    · exact follows_same id rfl (fun _ _ => Use.Calls.calling) trivial
        (fun _ => ⟨id, fun _ => rfl⟩) fun _ _ => id
    · split
      · exact follows_same id rfl (fun _ _ => Use.Calls.calling) trivial
          (fun _ => ⟨id, fun _ => rfl⟩) fun _ _ => id
      · exact follows_same id rfl (fun _ _ => id) trivial (fun _ => ⟨id, fun _ => rfl⟩)
          fun _ _ => id
  case writeTest c =>
    obtain ⟨-, rfl⟩ := Prod.mk.inj (Except.ok.inj hf)
    split
    · exact follows_same id rfl (fun _ _ => id) trivial (fun _ => ⟨id, fun _ => rfl⟩) fun _ _ => id
    · exact follows_same id rfl (fun _ _ => Use.Calls.calling) trivial
        (fun _ => ⟨id, fun _ => rfl⟩) fun _ _ => id
  case writeHeader c =>
    obtain ⟨⟨ok, rb⟩, -, hf⟩ := except_bind_ok hf
    obtain ⟨-, rfl⟩ := Prod.mk.inj (Except.ok.inj hf)
    exact follows_same id rfl (fun _ _ => id) trivial (fun _ => ⟨id, fun _ => rfl⟩) fun _ _ => id
  case writeBody c =>
    obtain ⟨⟨ok, rb⟩, -, hf⟩ := except_bind_ok hf
    obtain ⟨-, rfl⟩ := Prod.mk.inj (Except.ok.inj hf)
    exact follows_same id rfl (fun _ _ => id) trivial (fun _ => ⟨id, fun _ => rfl⟩) fun _ _ => id
  case writeEvents c =>
    obtain ⟨-, rfl⟩ := Prod.mk.inj (Except.ok.inj hf)
    exact follows_same id rfl (fun _ _ => id) trivial (fun h => absurd trivial h)
      fun _ _ => Bool.noConfusion
  case pollLink c i q =>
    obtain ⟨-, rfl⟩ := Prod.mk.inj (Except.ok.inj hf)
    exact follows_away rfl ⟨rfl, trivial, id⟩
  case pollCount c again numReady i q =>
    obtain ⟨-, rfl⟩ := Prod.mk.inj (Except.ok.inj hf)
    exact follows_away rfl (countFrom_away ..)
  case pollUnlink c numReady i q =>
    obtain ⟨-, rfl⟩ := Prod.mk.inj (Except.ok.inj hf)
    exact follows_away rfl ⟨rfl, trivial, id⟩

/-- Every statement hands the purpose of its call to the next. -/
theorem follows_of_leads {fresh : Nat} {pc next : Pc Q} (h : Leads code fresh pc next) :
    pc.Follows next := by
  cases h with
  | lock hc => exact follows_lock hc
  | unlock hc => exact follows_unlock hc
  | wait hc => exact follows_wait hc
  | signal hc => exact follows_signal hc
  | broadcast hc => exact follows_broadcast hc
  | access hc hf => exact follows_access hc hf
  | alloc hc =>
      cases pc <;> simp only [code, Instr.alloc.injEq, reduceCtorEq] at hc
      subst hc
      exact follows_away rfl ⟨rfl, trivial, id⟩
  | allocFails hc =>
      cases pc <;> simp only [code, Instr.alloc.injEq, reduceCtorEq] at hc
      subst hc
      exact follows_away rfl ⟨rfl, trivial, id⟩
  | goto hc =>
      cases pc <;> simp only [code, Instr.goto.injEq, reduceCtorEq] at hc
      subst hc
      exact follows_away rfl ⟨rfl, trivial, id⟩

end Purposes

end UoftOs.MsgQueue
