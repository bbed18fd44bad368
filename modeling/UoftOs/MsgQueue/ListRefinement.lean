import UoftOs.Lib.Rings
import UoftOs.Lib.Sleepers
import UoftOs.MsgQueue.EarlyUnlocks
import UoftOs.MsgQueue.ListStores
import UoftOs.MsgQueue.WaiterLists

/-!
# List operations of many stores as one step

As long as no read unlocks early, the statements of a list operation are those of one
thread, which holds the mutex of the queue. Each step of the program that stores pointer
by pointer is then followed by `Program`, where a list operation is one step: it takes
place with the last store. Between the stores the pointers are not a list, but the
remaining stores make them one.
-/

namespace UoftOs.MsgQueue

open Lib.Rings Lib.Threads

/-! ## Entries in a ring -/

namespace Entries

variable (es : Entries) (e p x : EntryPtr)

def nexts : EntryPtr → EntryPtr := fun a => (es a).next

def prevs : EntryPtr → EntryPtr := fun a => (es a).prev

@[simp] theorem nexts_setNext : (es.setNext e x).nexts = Function.update es.nexts e x := by
  funext a
  by_cases ha : a = e
  · subst ha
    simp [nexts, setNext]
  · simp [nexts, setNext, Function.update_of_ne ha]

@[simp] theorem prevs_setNext : (es.setNext e x).prevs = es.prevs := by
  funext a
  by_cases ha : a = e
  · subst ha
    simp [prevs, setNext]
  · simp [prevs, setNext, Function.update_of_ne ha]

@[simp] theorem nexts_setPrev : (es.setPrev e x).nexts = es.nexts := by
  funext a
  by_cases ha : a = e
  · subst ha
    simp [nexts, setPrev]
  · simp [nexts, setPrev, Function.update_of_ne ha]

@[simp] theorem prevs_setPrev : (es.setPrev e x).prevs = Function.update es.prevs e x := by
  funext a
  by_cases ha : a = e
  · subst ha
    simp [prevs, setPrev]
  · simp [prevs, setPrev, Function.update_of_ne ha]

/-- The four stores of `__list_insert` behind the last entry, which is `p`. -/
def insert : Entries := (((es.setPrev .head e).setNext e .head).setPrev e p).setNext p e

/-- The stores of `list_entry_init`. -/
def entryInit : Entries := (es.setNext e .null).setPrev e .null

/-- The second store of `list_del`, with `list_entry_init`. -/
def unlinkNext : Entries := (es.setNext (es e).prev (es e).next).entryInit e

end Entries

/-- The entries of the nodes are in a ring with the list head, in this order. -/
def IsList (es : Entries) (ns : List Node) : Prop := Ring es.nexts es.prevs .head (ns.map .node)

namespace IsList

variable {es es' : Entries} {ns as bs : List Node} {n : Node}

theorem not_mem (hn : n ∉ ns) : EntryPtr.node n ∉ EntryPtr.head :: ns.map .node := by
  simpa using hn

/-- The fields of an entry that is not linked do not matter. -/
theorem entryInit (h : IsList es ns) (hn : n ∉ ns) : IsList (es.entryInit (.node n)) ns := by
  refine Ring.congr h fun x hx => ?_
  have hne : x ≠ .node n := ne_of_mem_of_not_mem hx (not_mem hn)
  simp [Entries.entryInit, Function.update_of_ne hne]

theorem last (h : IsList es ns) : (es .head).prev = (ns.map .node).getLastD .head := h.prev_start

theorem insert (h : IsList es ns) (hn : n ∉ ns) :
    IsList (es.insert (.node n) (es .head).prev) (ns ++ [n]) := by
  have hring : Ring es.nexts es.prevs .head (ns.map .node ++ []) := by
    rw [List.append_nil]
    exact h
  have hfresh : EntryPtr.node n ∉ EntryPtr.head :: (ns.map .node ++ []) := by
    rw [List.append_nil]
    exact not_mem hn
  have hnew := hring.insert hfresh h.last (n := .head) rfl
  rw [IsList, List.map_append, List.map_singleton]
  simpa [Entries.insert] using hnew

/-- The first store of `list_del`, and the others. -/
theorem delete (h : IsList es (as ++ n :: bs)) :
    IsList ((es.setPrev (es (.node n)).next (es (.node n)).prev).unlinkNext (.node n)) (as ++ bs) := by
  have hring : Ring es.nexts es.prevs .head (as.map .node ++ .node n :: bs.map .node) := by
    rw [← List.map_cons, ← List.map_append]
    exact h
  have hfresh : n ∉ as ++ bs := by
    have hnodup := hring.nodup
    rw [← List.map_cons, ← List.map_append] at hnodup
    have hns : (as ++ n :: bs).Nodup := (List.nodup_cons.mp hnodup).2.of_map
    exact (List.nodup_cons.mp ((List.perm_middle.nodup_iff).mp hns)).1
  have hnext : (es (.node n)).next ≠ .node n := by
    have hmem : (es (.node n)).next = (bs.map .node).headD .head := hring.next_mem
    rw [hmem]
    cases bs with
    | nil => exact EntryPtr.noConfusion
    | cons b bs =>
        rintro ⟨⟩
        exact hfresh (List.mem_append_right _ List.mem_cons_self)
  have hself : (es.setPrev (es (.node n)).next (es (.node n)).prev) (.node n) = es (.node n) :=
    Function.update_of_ne hnext.symm ..
  refine entryInit ?_ hfresh
  rw [IsList, List.map_append, hself, Entries.nexts_setNext, Entries.prevs_setNext,
    Entries.nexts_setPrev, Entries.prevs_setPrev]
  exact hring.delete

end IsList

/-! ## Statements -/

section Statements
variable {Q : Type}

/-- The statement works on the list of its queue. -/
def Pc.OnList : Pc Q → Prop
  | .wakeStart _ => True
  | .wakeNext .. => True
  | .pollLink .. => True
  | .pollUnlink .. => True
  | _ => False

/-- The statement of `Program` that the statement is part of. -/
def ListPc.whole : ListPc Q → Pc Q
  | .stmt pc => pc
  | .entryInitPrev c i q => .pollLink c i q
  | .addTail c i q => .pollLink c i q
  | .insertNextPrev c i q _ => .pollLink c i q
  | .insertNext c i q _ => .pollLink c i q
  | .insertPrev c i q _ => .pollLink c i q
  | .insertPrevNext c i q _ => .pollLink c i q
  | .delNext c numReady i q => .pollUnlink c numReady i q
  | .delInitNext c numReady i q => .pollUnlink c numReady i q
  | .delInitPrev c numReady i q => .pollUnlink c numReady i q

/-- The queue of the list operation that the statement is in the middle of. -/
def ListPc.working : ListPc Q → Option Q
  | .stmt _ => none
  | .entryInitPrev _ _ q => some q
  | .addTail _ _ q => some q
  | .insertNextPrev _ _ q _ => some q
  | .insertNext _ _ q _ => some q
  | .insertPrev _ _ q _ => some q
  | .insertPrevNext _ _ q _ => some q
  | .delNext _ _ _ q => some q
  | .delInitNext _ _ _ q => some q
  | .delInitPrev _ _ _ q => some q

/-- The entries once the list operation is done. -/
def ListPc.finish : ListPc Q → Entries → Entries
  | .stmt _, es => es
  | .entryInitPrev c i _, es =>
      let es := es.setPrev (.node (nodeOf c i)) .null
      es.insert (.node (nodeOf c i)) (es .head).prev
  | .addTail c i _, es => es.insert (.node (nodeOf c i)) (es .head).prev
  | .insertNextPrev c i _ prev, es => es.insert (.node (nodeOf c i)) prev
  | .insertNext c i _ prev, es =>
      ((es.setNext (.node (nodeOf c i)) .head).setPrev (.node (nodeOf c i)) prev).setNext prev
        (.node (nodeOf c i))
  | .insertPrev c i _ prev, es =>
      (es.setPrev (.node (nodeOf c i)) prev).setNext prev (.node (nodeOf c i))
  | .insertPrevNext c i _ prev, es => es.setNext prev (.node (nodeOf c i))
  | .delNext c _ i _, es => es.unlinkNext (.node (nodeOf c i))
  | .delInitNext c _ i _, es => es.entryInit (.node (nodeOf c i))
  | .delInitPrev c _ i _, es => es.setPrev (.node (nodeOf c i)) .null

/-- The list once the list operation is done. -/
def Pc.relists : Pc Q → List Node → List Node
  | .pollLink c i _, ns => ns ++ [nodeOf c i]
  | .pollUnlink c _ i _, ns => ns.erase (nodeOf c i)
  | _, ns => ns

def ListPc.result : ListPc Q → List Node → List Node
  | .stmt _, ns => ns
  | pc, ns => pc.whole.relists ns

/-- The registration that the statement makes, with its last store. -/
def ListPc.links? : ListPc Q → Option (Q × Node)
  | .insertPrevNext c i q _ => some (q, nodeOf c i)
  | _ => none

/-- A backend with other waiters. -/
def MqBackend.withList (mq : MqBackend Node) (ns : List Node) : MqBackend Node :=
  { mq with queueListHead := ns }

variable {pc : Pc Q} {q : Q} {mq : MqBackend Node} {ns : List Node}

theorem mqOpen_withList (flags : CInt) :
    mqOpen (mq.withList ns) flags = (mqOpen mq flags).withList ns := by
  unfold mqOpen
  split <;> split <;> rfl

theorem mqClose_withList [Build] (flags : CInt) :
    mqClose (mq.withList ns) flags = (mqClose mq flags).map fun r => (r.1, r.2.withList ns) := by
  have hcounts : closeCounts (mq.withList ns) flags = (closeCounts mq flags).withList ns := by
    unfold closeCounts
    cases hasAny flags msgQueueReader <;> cases hasAny flags msgQueueWriter <;> rfl
  rw [mqClose_split, mqClose_split, hcounts]
  change (closeAsserts mq.refs mq.readers mq.writers flags).map _ = _
  cases closeAsserts mq.refs mq.readers mq.writers flags <;> rfl

theorem readEvents_withList : readEvents (mq.withList ns) = (readEvents mq).withList ns := by
  cases h : ringBufferUsed mq.buffer == 0 && !mq.noWriters <;>
    simp only [readEvents, MqBackend.withList, h, if_true, if_false, Bool.false_eq_true]

theorem writeEvents_withList : writeEvents (mq.withList ns) = (writeEvents mq).withList ns := by
  cases h : ringBufferFree mq.buffer == 0 && !mq.noReaders <;>
    simp only [writeEvents, MqBackend.withList, h, if_true, if_false, Bool.false_eq_true]

variable [Build]

/-- The other statements neither read nor write the list. -/
theorem access_withList (ns : List Node) (hlist : ¬ pc.OnList)
    {f : MqBackend Node → Except Fault (MqBackend Node × Pc Q)} (hc : code pc = .access q f) :
    f (mq.withList ns) = (f mq).map fun r => (r.1.withList ns, r.2) := by
  cases pc <;> simp only [code, Instr.access.injEq, reduceCtorEq] at hc <;>
    obtain ⟨rfl, rfl⟩ := hc <;> try exact absurd trivial hlist
  all_goals dsimp only
  case openTouch q flags => rw [mqOpen_withList]; rfl
  case closeTouch q flags =>
    rw [mqClose_withList]
    cases mqClose mq flags <;> rfl
  case closeNoReaders q => cases h : mq.noReaders <;> simp [MqBackend.withList, h, Except.map]
  case closeNoWriters q => cases h : mq.noWriters <;> simp [MqBackend.withList, h, Except.map]
  case wakeTest w n => rfl
  case readEof c =>
    cases h : mq.noWriters && ringBufferUsed mq.buffer == 0 <;>
      simp [MqBackend.withList, h, Except.map]
  case readTest c =>
    cases h : !mq.noWriters && ringBufferUsed mq.buffer == 0 <;>
      simp [MqBackend.withList, h, Except.map]
  case readEmpty c =>
    cases h : ringBufferUsed mq.buffer == 0 && mq.noWriters <;>
      simp [MqBackend.withList, h, Except.map]
  case readPeek c =>
    simp only [MqBackend.withList]
    cases ringBufferPeek mq.buffer sizeofSizeT <;> rfl
  case readHeader c early =>
    simp only [MqBackend.withList]
    cases ringBufferRead mq.buffer sizeofSizeT <;> rfl
  case readBody c early =>
    simp only [MqBackend.withList]
    cases ringBufferRead mq.buffer c.msgHead <;> rfl
  case readEvents c early => rw [readEvents_withList]; rfl
  case writeCheck c => rfl
  case writeTest c => rfl
  case writeHeader c =>
    simp only [MqBackend.withList]
    cases ringBufferWrite mq.buffer (sizeBytes c.length) sizeofSizeT <;> rfl
  case writeBody c =>
    simp only [MqBackend.withList]
    cases ringBufferWrite mq.buffer c.buffer c.length <;> rfl
  case writeEvents c => rw [writeEvents_withList]; rfl
  case pollCount c again numReady i q => rfl

theorem access_listless (hlist : ¬ pc.OnList)
    {f : MqBackend Node → Except Fault (MqBackend Node × Pc Q)} (hc : code pc = .access q f)
    {mq' : MqBackend Node} {next : Pc Q} (hf : f mq.unlinked.listless = .ok (mq', next)) :
    ∃ mq₁, f mq = .ok (mq₁, next) ∧ mq'.unlinked = mq₁.unlinked ∧
      mq₁.queueListHead = mq.queueListHead := by
  have hnone : f mq.unlinked.listless = (f mq).map fun r => (r.1.withList [], r.2) :=
    access_withList [] hlist hc
  have hsame : f mq = (f mq).map fun r => (r.1.withList mq.queueListHead, r.2) :=
    access_withList mq.queueListHead hlist hc
  rw [hnone] at hf
  cases hrun : f mq with
  | error e =>
      rw [hrun] at hf
      cases hf
  | ok r =>
      obtain ⟨mq₁, next₁⟩ := r
      rw [hrun] at hf hsame
      cases hf
      refine ⟨mq₁, rfl, rfl, ?_⟩
      have hlists : mq₁ = mq₁.withList mq.queueListHead := (Prod.mk.inj (Except.ok.inj hsame)).1
      rw [hlists]
      rfl

theorem listCode_stmt (hlist : ¬ pc.OnList) : listCode (.stmt pc) = liftInstr (code pc) := by
  cases pc <;> first | rfl | exact absurd trivial hlist

/-- The statement changes the list of `q`. -/
def Pc.ChangesList : Pc Q → Q → Prop
  | .pollLink _ _ q', q => q' = q
  | .pollUnlink _ _ _ q', q => q' = q
  | _, _ => False

/-- A node that is to be linked is not on the list, one that is to be unlinked is. -/
def Pc.Changeable : Pc Q → List Node → Prop
  | .pollLink c i _, ns => nodeOf c i ∉ ns
  | .pollUnlink c _ i _, ns => nodeOf c i ∈ ns
  | _, _ => True

/-- What a statement does to a backend, and where it leads. -/
inductive ListAccess : ListPc Q → Q → LinkedBackend → LinkedBackend → ListPc Q → Prop
  | plain {pc q f b mq next} (hlist : ¬ pc.OnList) (hc : code pc = .access q f)
      (hf : f b.mq.listless = .ok (mq, next)) :
      ListAccess (.stmt pc) q b { b with mq := mq.unlinked } (.stmt next)
  | starts {w b next} (hvisit : listVisit w (b.entries .head).next = .ok next) :
      ListAccess (.stmt (.wakeStart w)) w.q b b next
  | nexts {w n b next} (hvisit : listVisit w (b.entries (.node n)).next = .ok next) :
      ListAccess (.stmt (.wakeNext w n)) w.q b b next
  | begins {pc q b es next} (hpc : pc.ChangesList q) (hworking : next.working = some q)
      (hwhole : next.whole = pc) (hring : ∀ ns, pc.Changeable ns → IsList b.entries ns →
        IsList (next.finish es) (next.result ns)) :
      ListAccess (.stmt pc) q b { b with entries := es } next
  | middle {pc q b e next} (hpc : pc.working = some q) (hworking : next.working = some q)
      (hwhole : next.whole = pc.whole) (hfinish : next.finish e = pc.finish b.entries)
      (hresult : next.result = pc.result) (hlinks : pc.links? = none) :
      ListAccess pc q b { b with entries := e } next
  | ends {pc q b es f next} (hpc : pc.working = some q) (hfinish : es = pc.finish b.entries)
      (hc : code pc.whole = .access q f) (hf : ∀ mq : MqBackend Node,
        f mq = .ok (mq.withList (pc.result mq.queueListHead), next))
      (hlinks : pc.links? = linksAt (.running pc.whole)) :
      ListAccess pc q b { b with entries := es } (.stmt next)

omit [Build] in
theorem setNext_ok {b b' : LinkedBackend} {e x : EntryPtr} {next next' : ListPc Q}
    (h : (do return (← b.setNext e x, next)) = Except.ok (b', next')) :
    b' = { b with entries := b.entries.setNext e x } ∧ next' = next := by
  unfold LinkedBackend.setNext at h
  split at h <;> cases h
  exact ⟨rfl, rfl⟩

omit [Build] in
theorem setPrev_ok {b b' : LinkedBackend} {e x : EntryPtr} {next next' : ListPc Q}
    (h : (do return (← b.setPrev e x, next)) = Except.ok (b', next')) :
    b' = { b with entries := b.entries.setPrev e x } ∧ next' = next := by
  unfold LinkedBackend.setPrev at h
  split at h <;> cases h
  exact ⟨rfl, rfl⟩

omit [Build] in
theorem listVisit_ok {b b' : LinkedBackend} {w : Wakeup Q} {x : EntryPtr} {next : ListPc Q}
    (h : (do return (b, ← listVisit w x)) = Except.ok (b', next)) :
    b' = b ∧ listVisit w x = .ok next := by
  cases hv : listVisit w x with
  | error e =>
      rw [hv] at h
      cases h
  | ok next' =>
      rw [hv] at h
      cases h
      exact ⟨rfl, rfl⟩

theorem listCode_access {pc next : ListPc Q} {b b' : LinkedBackend}
    {f : LinkedBackend → Except Fault (LinkedBackend × ListPc Q)} (hc : listCode pc = .access q f)
    (hf : f b = .ok (b', next)) : ListAccess pc q b b' next := by
  cases pc with
  | stmt pc =>
      by_cases hlist : pc.OnList
      · cases pc <;> simp only [Pc.OnList] at hlist
        case wakeStart w =>
          obtain ⟨rfl, rfl⟩ := Instr.access.inj hc
          obtain ⟨rfl, hvisit⟩ := listVisit_ok hf
          exact .starts hvisit
        case wakeNext w n =>
          obtain ⟨rfl, rfl⟩ := Instr.access.inj hc
          obtain ⟨rfl, hvisit⟩ := listVisit_ok hf
          exact .nexts hvisit
        case pollLink c i r =>
          obtain ⟨rfl, rfl⟩ := Instr.access.inj hc
          obtain ⟨rfl, rfl⟩ := setNext_ok hf
          refine .begins rfl rfl rfl fun ns hn h => ?_
          exact (h.entryInit hn).insert hn
        case pollUnlink c numReady i r =>
          obtain ⟨rfl, rfl⟩ := Instr.access.inj hc
          obtain ⟨rfl, rfl⟩ := setPrev_ok hf
          refine .begins rfl rfl rfl fun ns hn h => ?_
          obtain ⟨as, bs, hnot, rfl, herase⟩ := List.exists_erase_eq hn
          change IsList _ ((as ++ nodeOf c i :: bs).erase (nodeOf c i))
          rw [herase]
          exact h.delete
      · rw [listCode_stmt hlist] at hc
        cases hcode : code pc <;> rw [hcode] at hc <;> simp only [liftInstr, reduceCtorEq] at hc
        case access r g =>
          obtain ⟨rfl, rfl⟩ := Instr.access.inj hc
          cases hg : g b.mq.listless with
          | error e =>
              simp only [hg, bind, Except.bind, reduceCtorEq] at hf
          | ok result =>
              simp only [hg, bind, Except.bind, pure, Except.pure, Except.ok.injEq,
                Prod.mk.injEq] at hf
              obtain ⟨rfl, rfl⟩ := hf
              exact .plain hlist hcode hg
  | entryInitPrev c i r =>
      obtain ⟨rfl, rfl⟩ := Instr.access.inj hc
      obtain ⟨rfl, rfl⟩ := setPrev_ok hf
      exact .middle rfl rfl rfl rfl rfl rfl
  | addTail c i r =>
      obtain ⟨rfl, rfl⟩ := Instr.access.inj hc
      cases hf
      exact .middle (e := b.entries) rfl rfl rfl rfl rfl rfl
  | insertNextPrev c i r prev =>
      obtain ⟨rfl, rfl⟩ := Instr.access.inj hc
      obtain ⟨rfl, rfl⟩ := setPrev_ok hf
      exact .middle rfl rfl rfl rfl rfl rfl
  | insertNext c i r prev =>
      obtain ⟨rfl, rfl⟩ := Instr.access.inj hc
      obtain ⟨rfl, rfl⟩ := setNext_ok hf
      exact .middle rfl rfl rfl rfl rfl rfl
  | insertPrev c i r prev =>
      obtain ⟨rfl, rfl⟩ := Instr.access.inj hc
      obtain ⟨rfl, rfl⟩ := setPrev_ok hf
      exact .middle rfl rfl rfl rfl rfl rfl
  | insertPrevNext c i r prev =>
      obtain ⟨rfl, rfl⟩ := Instr.access.inj hc
      obtain ⟨rfl, rfl⟩ := setNext_ok hf
      exact .ends rfl rfl rfl (fun mq => rfl) rfl
  | delNext c numReady i r =>
      obtain ⟨rfl, rfl⟩ := Instr.access.inj hc
      obtain ⟨rfl, rfl⟩ := setNext_ok hf
      exact .middle rfl rfl rfl rfl rfl rfl
  | delInitNext c numReady i r =>
      obtain ⟨rfl, rfl⟩ := Instr.access.inj hc
      obtain ⟨rfl, rfl⟩ := setNext_ok hf
      exact .middle rfl rfl rfl rfl rfl rfl
  | delInitPrev c numReady i r =>
      obtain ⟨rfl, rfl⟩ := Instr.access.inj hc
      obtain ⟨rfl, rfl⟩ := setPrev_ok hf
      exact .ends rfl rfl rfl (fun mq => rfl) rfl

omit [Build] in
/-- Between the stores of a list operation a thread holds the mutex by its statement. -/
theorem ListPc.holds_of_working {pc : ListPc Q} (h : pc.working = some q) :
    holds pc.whole (.queue q) := by
  cases pc <;> simp only [ListPc.working, reduceCtorEq, Option.some.injEq] at h <;> subst h <;>
    exact List.mem_cons_self

/-- The thread as `Program` has it. -/
def wholeThread : Thread (ListPc Q) → Thread (Pc Q)
  | .idle => .idle
  | .running pc => .running pc.whole
  | .asleep pc => .asleep pc.whole
  | .woken pc => .woken pc.whole

/-- A statement that waits is one of `Program`. -/
theorem listCode_wait {pc next : ListPc Q} {c : CondId Q} {m : Mutex Q}
    (h : listCode pc = .wait c m next) :
    ∃ pc' next', pc = .stmt pc' ∧ next = .stmt next' ∧ code pc' = .wait c m next' := by
  cases pc with
  | stmt pc =>
      by_cases hlist : pc.OnList
      · cases pc <;> first | exact hlist.elim | cases h
      · rw [listCode_stmt hlist] at h
        cases hcode : code pc <;> rw [hcode] at h <;>
          simp only [liftInstr, Instr.wait.injEq, reduceCtorEq] at h
        obtain ⟨rfl, rfl, rfl⟩ := h
        exact ⟨pc, _, rfl, rfl, hcode⟩
  | _ => cases h

theorem wholeThread_sleepsOn {th : Thread (ListPc Q)} {c : CondId Q} :
    SleepsOn code (wholeThread th) c ↔ SleepsOn listCode th c := by
  constructor
  · rintro ⟨pc, m, next, hth, hc⟩
    cases th <;> simp only [wholeThread, Thread.asleep.injEq, reduceCtorEq] at hth
    next pc' =>
      subst hth
      have hlist : ¬ pc'.whole.OnList := fun h => by
        cases hw : pc'.whole <;> rw [hw] at h hc <;> first | exact h.elim | cases hc
      cases pc' with
      | stmt pc' =>
          have hcode : listCode (.stmt pc') = liftInstr (code pc') := listCode_stmt hlist
          exact ⟨_, m, .stmt next, rfl, hcode.trans (congrArg liftInstr hc)⟩
      | _ => exact absurd trivial hlist
  · rintro ⟨pc, m, next, rfl, hc⟩
    obtain ⟨pc', next', rfl, rfl, hc'⟩ := listCode_wait hc
    exact ⟨pc', m, next', rfl, hc'⟩

end Statements

/-! ## Runs -/

section Runs
variable {T Q : Type} [DecidableEq T] [DecidableEq Q] [Build]

/-- The threads, the mutexes, and the backends with their entries. -/
abbrev ListSystem (T Q : Type) := State T (ListPc Q) (Mutex Q) Q LinkedBackend

def IsListEntry (pc : ListPc Q) : Prop := ∃ pc', pc = .stmt pc' ∧ IsEntry pc'

abbrev ListStep (s : ListSystem T Q) (l : Label T (ListPc Q)) (s' : ListSystem T Q) : Prop :=
  Step listCode IsListEntry s l s'

/-- The pointers show the lists of `c`: where no thread is in the middle of a list operation
they are its list, and elsewhere they will be once the operation is done. -/
structure Shows (s : ListSystem T Q) (c : System T Q) : Prop where
  owner : c.owner = s.owner
  fresh : c.fresh = s.fresh
  threads : ∀ t, c.threads t = wholeThread (s.threads t)
  backend : ∀ q, (s.objects q).mq = (c.objects q).unlinked
  settled : ∀ q, (∀ t pc, s.threads t = .running pc → pc.working ≠ some q) →
    IsList (s.objects q).entries (c.objects q).queueListHead
  working : ∀ t pc q, s.threads t = .running pc → pc.working = some q →
    IsList (pc.finish (s.objects q).entries) (pc.result (c.objects q).queueListHead)

/-- The thread is not in the middle of a list operation. -/
def AtStatement (th : Thread (ListPc Q)) : Prop := ∀ pc, th = .running pc → pc.working = none

variable {s s₀ s' : ListSystem T Q} {c c₀ c' : System T Q} {l : Label T (ListPc Q)}

omit [DecidableEq Q] [Build] in
theorem wholeThread_update {t : T} (h : ∀ u, c.threads u = wholeThread (s.threads u))
    (x : Thread (ListPc Q)) (u : T) : Function.update c.threads t (wholeThread x) u =
      wholeThread (Function.update s.threads t x u) := by
  rw [funext h]
  exact (Function.apply_update (fun _ => wholeThread) s.threads t x u).symm

namespace Shows

omit [DecidableEq T] [DecidableEq Q] [Build] in
/-- Threads that are in the middle of no list operation go on, and leave the lists alone. -/
theorem move (h : Shows s c) (howner : c'.owner = s'.owner) (hfresh : c'.fresh = s'.fresh)
    (hthreads : ∀ t, c'.threads t = wholeThread (s'.threads t))
    (hbackend : ∀ q, (s'.objects q).mq = (c'.objects q).unlinked)
    (hentries : ∀ q, (s'.objects q).entries = (s.objects q).entries)
    (hlists : ∀ q, (c'.objects q).queueListHead = (c.objects q).queueListHead)
    (hmoved : ∀ t, s'.threads t = s.threads t ∨
      AtStatement (s.threads t) ∧ AtStatement (s'.threads t)) : Shows s' c' where
  owner := howner
  fresh := hfresh
  threads := hthreads
  backend := hbackend
  settled q hnone := by
    rw [hentries, hlists]
    refine h.settled q fun t pc hpc hworking => ?_
    rcases hmoved t with hsame | ⟨hat, -⟩
    · exact hnone t pc (hsame.trans hpc) hworking
    · rw [hat pc hpc] at hworking
      cases hworking
  working t pc q hpc hworking := by
    rw [hentries, hlists]
    rcases hmoved t with hsame | ⟨-, hat⟩
    · exact h.working t pc q (hsame.symm.trans hpc) hworking
    · rw [hat pc hpc] at hworking
      cases hworking

omit [DecidableEq Q] [Build] in
/-- One thread goes on, or falls asleep, or is woken. -/
theorem update (h : Shows s c) {t : T} {x : Thread (ListPc Q)}
    (howner : c'.owner = s'.owner) (hfresh : c'.fresh = s'.fresh)
    (hobjects : s'.objects = s.objects) (hobjects' : c'.objects = c.objects)
    (hthreads : s'.threads = Function.update s.threads t x)
    (hthreads' : c'.threads = Function.update c.threads t (wholeThread x))
    (hat : AtStatement (s.threads t)) (hat' : AtStatement x) : Shows s' c' := by
  refine h.move howner hfresh (fun u => ?_) (fun q => ?_) (fun q => by rw [hobjects])
    (fun q => by rw [hobjects']) fun u => ?_
  · rw [hthreads, hthreads']
    exact wholeThread_update h.threads x u
  · rw [hobjects, hobjects']
    exact h.backend q
  · rw [hthreads]
    by_cases hu : u = t
    · subst hu
      rw [Function.update_self]
      exact .inr ⟨hat, hat'⟩
    · exact .inl (Function.update_of_ne hu ..)

omit [DecidableEq T] [DecidableEq Q] [Build] in
theorem atStatement_stmt {pc : Pc Q} : AtStatement (Thread.running (ListPc.stmt pc)) := by
  rintro _ ⟨⟩
  rfl

omit [DecidableEq T] [DecidableEq Q] in
/-- No other thread is in the middle of a list operation on a queue whose mutex the thread
holds by its statement. -/
theorem alone (h : Shows s c) (hp : Prompt c) {t u : T} {pc pc' : ListPc Q} {q : Q}
    (ht : s.threads t = .running pc) (hheld : holds pc.whole (.queue q))
    (hu : s.threads u = .running pc') (hworking : pc'.working = some q) : u = t := by
  have howner := hp.holders t (.queue q) (by rw [h.threads, ht]; exact hheld)
  have howner' := hp.holders u (.queue q) (by
    rw [h.threads, hu]
    exact ListPc.holds_of_working hworking)
  exact Option.some.inj (howner'.symm.trans howner)

omit [Build] in
/-- A thread that has the list of a queue to itself changes its entries. -/
theorem store (h : Shows s c) {t : T} {pc next : ListPc Q} {q : Q} {es : Entries}
    (ht : s.threads t = .running pc) (hpc : pc.working = none ∨ pc.working = some q)
    (hnext : next.working = none ∨ next.working = some q)
    (halone : ∀ u pc', s.threads u = .running pc' → pc'.working = some q → u = t)
    (howner : c'.owner = c.owner) (hfresh : c'.fresh = c.fresh)
    (hthreads : c'.threads = Function.update c.threads t (.running next.whole))
    (hunlinked : ∀ r, (c'.objects r).unlinked = (c.objects r).unlinked)
    (hothers : ∀ r, r ≠ q → (c'.objects r).queueListHead = (c.objects r).queueListHead)
    (hlist : IsList (next.finish es) (next.result (c'.objects q).queueListHead)) :
    Shows ((s.setObject q { s.objects q with entries := es }).goTo t next) c' where
  owner := howner.trans h.owner
  fresh := hfresh.trans h.fresh
  threads u := by
    rw [hthreads]
    exact wholeThread_update h.threads (.running next) u
  backend := by
    refine State.forall_setObject s (P := fun r b => b.mq = (c'.objects r).unlinked) ?_ fun r _ => ?_
    · rw [hunlinked]
      exact h.backend q
    · rw [hunlinked]
      exact h.backend r
  settled r hnone := by
    have hnext' : next.working ≠ some r := hnone t next (State.goTo_self ..)
    rw [State.goTo_objects]
    by_cases hr : r = q
    · subst hr
      rw [State.setObject_object]
      cases next with
      | stmt pc' => exact hlist
      | _ => exact absurd (hnext.resolve_left (by simp [ListPc.working])) hnext'
    · rw [State.setObject_of_ne _ _ hr, hothers r hr]
      refine h.settled r fun u pc' hu hworking => ?_
      by_cases hut : u = t
      · subst hut
        obtain rfl := Thread.running.inj (hu.symm.trans ht)
        rw [hworking] at hpc
        rcases hpc with hpc | hpc
        · cases hpc
        · exact hr (Option.some.inj hpc)
      · exact hnone u pc' ((State.goTo_of_ne _ _ _ hut).trans hu) hworking
  working u pc' r hu hworking := by
    rw [State.goTo_objects]
    by_cases hut : u = t
    · subst hut
      rw [State.goTo_self] at hu
      obtain rfl := Thread.running.inj hu
      obtain rfl : q = r := by
        rw [hworking] at hnext
        rcases hnext with hnext | hnext
        · cases hnext
        · exact (Option.some.inj hnext).symm
      rw [State.setObject_object]
      exact hlist
    · rw [State.goTo_of_ne _ _ _ hut] at hu
      by_cases hr : r = q
      · subst hr
        exact absurd (halone u pc' hu hworking) hut
      · rw [State.setObject_of_ne _ _ hr, hothers r hr]
        exact h.working u pc' r hu hworking

end Shows

/-- A step as `Program` has it. -/
def wholeLabel : Label T (ListPc Q) → Label T (Pc Q)
  | .start t pc => .start t pc.whole
  | .step t => .step t
  | .spurious t => .spurious t

/-- The registration that the step `l` makes. -/
def listRegistration (s : ListSystem T Q) : Label T (ListPc Q) → Option (Q × Node)
  | .step t =>
      match s.threads t with
      | .running pc => pc.links?
      | _ => none
  | _ => none

/-- What `Program` does meanwhile: it takes the step, or waits for the end of a list
operation. -/
inductive Follows (s : ListSystem T Q) (c : System T Q) (l : Label T (ListPc Q))
    (s' : ListSystem T Q) : Prop
  | steps {c' : System T Q} (hstep : SysStep c (wholeLabel l) c') (h : Shows s' c')
      (hlog : listRegistration s l = registration c (wholeLabel l)) : Follows s c l s'
  | waits (h : Shows s' c) (hlog : listRegistration s l = none) : Follows s c l s'

omit [DecidableEq T] [DecidableEq Q] [Build] in
/-- A thread at a statement links nothing with its step, unless it is about to link. -/
theorem registration_stmt (h : Shows s c) {t : T} {pc : Pc Q} (ht : s.threads t = .running (.stmt pc))
    (hlist : ¬ pc.OnList) :
    listRegistration s (.step t) = registration c (wholeLabel (.step t)) := by
  rw [listRegistration, ht, wholeLabel, registration, h.threads, ht]
  change none = linksAt (.running pc)
  cases pc <;> first | rfl | exact absurd trivial hlist

omit [DecidableEq Q] in
/-- The other instructions are those of `Program`. -/
theorem listCode_lift {pc : ListPc Q} {i : Instr (ListPc Q) (Mutex Q) (CondId Q) Q LinkedBackend Fault}
    (hc : listCode pc = i) (hi : ∀ q f, i ≠ .access q f) :
    ∃ pc' j, pc = .stmt pc' ∧ ¬ pc'.OnList ∧ code pc' = j ∧ liftInstr j = i := by
  cases pc with
  | stmt pc =>
      by_cases hlist : pc.OnList
      · cases pc <;> first | exact hlist.elim | exact absurd hc.symm (hi _ _)
      · exact ⟨pc, _, rfl, hlist, rfl, (listCode_stmt hlist).symm.trans hc⟩
  | _ => exact absurd hc.symm (hi _ _)

omit [DecidableEq T] [DecidableEq Q] [Build] in
theorem Registered.changeable (hr : Registered c) {t : T} {pc : Pc Q} {q : Q}
    (ht : c.threads t = .running pc) (hpc : pc.ChangesList q) :
    pc.Changeable (c.objects q).queueListHead := by
  cases pc <;> simp only [Pc.ChangesList] at hpc <;> subst hpc
  case pollLink => exact hr.not_linked ht _
  case pollUnlink => exact hr.still_linked ht

omit [DecidableEq Q] [Build] in
theorem Pc.ChangesList.holds {pc : Pc Q} {q : Q} (h : pc.ChangesList q) : holds pc (.queue q) := by
  cases pc <;> simp only [Pc.ChangesList] at h <;> subst h <;> exact List.mem_cons_self

omit [DecidableEq Q] [Build] in
/-- The next entry of the list, as the loop of `helper_wakeup` takes it. -/
theorem listVisit_headD {w : Wakeup Q} {ns : List Node} {next : ListPc Q}
    (h : listVisit w ((ns.map .node).headD .head) = .ok next) :
    next = .stmt (match ns.head? with | some n => .wakeTest w n | none => .wakeDone w) := by
  cases ns with
  | nil => exact (Except.ok.inj h).symm
  | cons n ns => exact (Except.ok.inj h).symm

omit [Build] in
theorem nextNode_append {as bs : List Node} {n : Node} (hn : n ∉ as) :
    nextNode (as ++ n :: bs) n = .ok bs.head? := by
  have hdrop : (as ++ n :: bs).dropWhile (· != n) = n :: bs := by
    rw [List.dropWhile_append_of_pos fun a ha => by simpa using ne_of_mem_of_not_mem ha hn]
    exact List.dropWhile_cons_of_neg (by simp)
  rw [nextNode, hdrop]

omit [DecidableEq T] [DecidableEq Q] in
/-- A thread walks the list of a queue on its own. -/
theorem Shows.walked (h : Shows s c) (hp : Prompt c) {t : T} {pc : Pc Q} {q : Q}
    (ht : s.threads t = .running (.stmt pc)) (hheld : holds pc (.queue q)) :
    IsList (s.objects q).entries (c.objects q).queueListHead := by
  refine h.settled q fun u pc' hu hworking => ?_
  obtain rfl := h.alone hp ht hheld hu hworking
  obtain rfl := Thread.running.inj (ht.symm.trans hu)
  cases hworking

omit [Build] in
/-- An access of `Program` to a backend that leaves it alone. -/
theorem Shows.goes (h : Shows s c) {t : T} {pc next : Pc Q} {q : Q} {b : LinkedBackend}
    {mq : MqBackend Node} (ht : s.threads t = .running (.stmt pc))
    (hentries : b.entries = (s.objects q).entries) (hmq : b.mq = mq.unlinked)
    (hlist : mq.queueListHead = (c.objects q).queueListHead) :
    Shows ((s.setObject q b).goTo t (.stmt next)) ((c.setObject q mq).goTo t next) := by
  refine h.move h.owner h.fresh (fun u => ?_) (fun r => ?_) (fun r => ?_) (fun r => ?_) fun u => ?_
  · exact wholeThread_update h.threads (.running (.stmt next)) u
  · rw [State.goTo_objects, State.goTo_objects]
    by_cases hr : r = q
    · subst hr
      rw [State.setObject_object, State.setObject_object, hmq]
    · rw [State.setObject_of_ne _ _ hr, State.setObject_of_ne _ _ hr]
      exact h.backend r
  · exact State.forall_setObject s (P := fun r b => b.entries = (s.objects r).entries) hentries
      (fun _ _ => rfl) r
  · exact State.forall_setObject c (P := fun r mq => mq.queueListHead = (c.objects r).queueListHead)
      hlist (fun _ _ => rfl) r
  · refine State.forall_goTo _ (P := fun u th => th = s.threads u ∨ AtStatement (s.threads u) ∧
      AtStatement th) ?_ (fun _ _ => .inl rfl) u
    rw [ht]
    exact .inr ⟨Shows.atStatement_stmt, Shows.atStatement_stmt⟩

theorem follows_listAccess (h : Shows s c) (hp : Prompt c) {t : T} {pc next : ListPc Q} {q : Q}
    {b : LinkedBackend} (ht : s.threads t = .running pc)
    (ha : ListAccess pc q (s.objects q) b next) :
    Follows s c (.step t) ((s.setObject q b).goTo t next) := by
  have hrunning : c.threads t = .running pc.whole := by
    rw [h.threads, ht]
    rfl
  have hnoLog (hlinks : pc.links? = none) : listRegistration s (.step t) = none := by
    rw [listRegistration, ht]
    exact hlinks
  cases ha with
  | @plain pc q f b mq next hlist hc hf =>
      rw [h.backend] at hf
      obtain ⟨mq₁, hrun, hmq, hlists⟩ := access_listless hlist hc hf
      exact .steps (.access hrunning hc hrun) (h.goes ht rfl hmq hlists)
        (registration_stmt h ht hlist)
  | @starts w b next hvisit =>
      have hearly : w.early = false := by
        rw [← Bool.not_eq_true]
        exact fun hs => hp.prompt t (.wakeStart w) (by rw [hrunning]; rfl) ⟨hs, rfl⟩
      have hheld : holds (.wakeStart w) (.queue w.q) := by
        simp [holds, locksAt, Wakeup.locks, hearly]
      have hring := h.walked hp ht hheld
      have hfirst : ((s.objects w.q).entries .head).next =
          ((c.objects w.q).queueListHead.map .node).headD .head := Ring.next_start hring
      rw [hfirst] at hvisit
      obtain rfl := listVisit_headD hvisit
      refine .steps (.access hrunning rfl rfl) (h.goes ht rfl (h.backend w.q) rfl) ?_
      rw [hnoLog rfl, wholeLabel, registration, hrunning]
      rfl
  | @nexts w n b next hvisit =>
      have hpoint : (c.threads t).point = some (.wakeNext w n) := by rw [hrunning]; rfl
      have hheld : holds (.wakeNext w n) (.queue w.q) := visits_locks rfl (hp.prompt t _ hpoint)
      have hring := h.walked hp ht hheld
      obtain ⟨as, bs, hns⟩ := List.append_of_mem (hp.listed t _ w n hpoint rfl)
      have hnot : n ∉ as := by
        have hnodup := hp.registered.nodup w.q
        rw [hns] at hnodup
        exact fun hmem => (List.nodup_append.mp hnodup).2.2 n hmem n List.mem_cons_self rfl
      have hnext : ((s.objects w.q).entries (.node n)).next = (bs.map .node).headD .head := by
        rw [hns, IsList, List.map_append, List.map_cons] at hring
        exact hring.next_mem
      rw [hnext] at hvisit
      obtain rfl := listVisit_headD hvisit
      have hrun : (do
          match ← nextNode (c.objects w.q).queueListHead n with
          | some n' => return (c.objects w.q, .wakeTest w n')
          | none => return (c.objects w.q, .wakeDone w) :
            Except Fault (MqBackend Node × Pc Q)) = .ok (c.objects w.q,
              match bs.head? with | some n => .wakeTest w n | none => .wakeDone w) := by
        rw [hns, nextNode_append hnot]
        cases bs <;> rfl
      refine .steps (.access hrunning rfl hrun) (h.goes ht rfl (h.backend w.q) rfl) ?_
      rw [hnoLog rfl, wholeLabel, registration, hrunning]
      rfl
  | @begins pc q b es next hpc hworking hwhole hring =>
      change c.threads t = .running pc at hrunning
      have hlist := h.walked hp ht hpc.holds
      have hnew := hring _ (hp.registered.changeable hrunning hpc) hlist
      refine .waits (h.store ht (.inl rfl) (.inr hworking) (fun u pc' hu hw =>
        h.alone hp ht hpc.holds hu hw) rfl rfl ?_ (fun _ => rfl) (fun _ _ => rfl) hnew) (hnoLog rfl)
      rw [hwhole, ← hrunning, Function.update_eq_self]
  | @middle pc q b es next hpc hworking hwhole hfinish hresult hlinks =>
      have hheld := ListPc.holds_of_working hpc
      refine .waits (h.store ht (.inr hpc) (.inr hworking) (fun u pc' hu hw =>
        h.alone hp ht hheld hu hw) rfl rfl ?_ (fun _ => rfl) (fun _ _ => rfl) ?_) (hnoLog hlinks)
      · rw [hwhole, ← hrunning, Function.update_eq_self]
      · rw [hfinish, hresult]
        exact h.working t _ q ht hpc
  | @ends pc q b es f next hpc hfinish hc hf hlinks =>
      have hheld := ListPc.holds_of_working hpc
      refine .steps (.access hrunning hc (hf _)) (h.store ht (.inr hpc) (.inl rfl)
        (fun u pc' hu hw => h.alone hp ht hheld hu hw) rfl rfl rfl (fun r => ?_) (fun r hr => ?_) ?_) ?_
      · refine State.forall_setObject c (P := fun r mq => mq.unlinked = (c.objects r).unlinked) ?_
          (fun _ _ => rfl) r
        rfl
      · rw [State.goTo_objects, State.setObject_of_ne _ _ hr]
      · rw [State.goTo_objects, State.setObject_object, hfinish]
        exact h.working t _ q ht hpc
      · rw [listRegistration, ht, wholeLabel, registration, hrunning]
        exact hlinks

omit [DecidableEq T] [DecidableEq Q] [Build] in
theorem atStatement_stopped {th : Thread (ListPc Q)} (h : ∀ pc, th ≠ .running pc) :
    AtStatement th := fun pc hpc => absurd hpc (h pc)

/-- A thread at a statement of `Program` that is no access takes its step there. -/
theorem follows_stmt (h : Shows s c) {t : T} {pc : Pc Q} (hlist : ¬ pc.OnList)
    (ht : s.threads t = .running (.stmt pc)) (hstep : SysStep c (.step t) c') (h' : Shows s' c') :
    Follows s c (.step t) s' :=
  .steps hstep h' (registration_stmt h ht hlist)

/-- Every step is followed, as long as no read unlocks early. -/
theorem follows_step (h : Shows s c) (hp : Prompt c) (hstep : ListStep s l s') :
    Follows s c l s' := by
  have running {t : T} {pc : Pc Q} (ht : s.threads t = .running (.stmt pc)) :
      c.threads t = .running pc := by
    rw [h.threads, ht]
    rfl
  have at_stmt {t : T} {pc : Pc Q} (ht : s.threads t = .running (.stmt pc)) :
      AtStatement (s.threads t) := by
    rw [ht]
    exact Shows.atStatement_stmt
  cases hstep with
  | @start t pc hidle he =>
      obtain ⟨pc, rfl, he⟩ := he
      have hidle' : c.threads t = .idle := by
        rw [h.threads, hidle]
        rfl
      refine .steps (.start hidle' he) (h.update (t := t) (x := .running (.stmt pc)) h.owner h.fresh
        rfl rfl rfl rfl ?_ Shows.atStatement_stmt) rfl
      rw [hidle]
      exact atStatement_stopped (by simp)
  | @access t pc q f b next ht hc hf => exact follows_listAccess h hp ht (listCode_access hc hf)
  | @spurious t pc ht =>
      have hasleep : c.threads t = .asleep pc.whole := by
        rw [h.threads, ht]
        rfl
      refine .steps (.spurious hasleep) (h.update (t := t) (x := .woken pc) h.owner h.fresh rfl rfl
        rfl rfl ?_ (atStatement_stopped (by simp))) rfl
      rw [ht]
      exact atStatement_stopped (by simp)
  | @relock t pc cv m next ht hc hfree =>
      obtain ⟨pc, next, rfl, rfl, hcode⟩ := listCode_wait hc
      have hwoken : c.threads t = .woken pc := by
        rw [h.threads, ht]
        rfl
      have hfree' : c.owner m = none := by rw [h.owner, hfree]
      refine .steps (.relock hwoken hcode hfree') (h.update (t := t) (x := .running (.stmt next)) ?_
        h.fresh rfl rfl rfl rfl ?_ Shows.atStatement_stmt) ?_
      · simp only [State.goTo, State.setOwner, h.owner]
      · rw [ht]
        exact atStatement_stopped (by simp)
      · rw [listRegistration, ht, wholeLabel, registration, hwoken]
        rfl
  | @lock t pc m next ht hc hfree =>
      obtain ⟨pc, j, rfl, hlist, hcode, hj⟩ := listCode_lift hc (by simp)
      cases j <;> cases hj
      refine follows_stmt h hlist ht (.lock (running ht) hcode (by rw [h.owner, hfree])) ?_
      refine h.update ?_ h.fresh rfl rfl rfl rfl (at_stmt ht) Shows.atStatement_stmt
      simp only [State.goTo, State.setOwner, h.owner]
  | @unlock t pc m next ht hc =>
      obtain ⟨pc, j, rfl, hlist, hcode, hj⟩ := listCode_lift hc (by simp)
      cases j <;> cases hj
      refine follows_stmt h hlist ht (.unlock (running ht) hcode) ?_
      refine h.update ?_ h.fresh rfl rfl rfl rfl (at_stmt ht) Shows.atStatement_stmt
      simp only [State.goTo, State.setOwner, h.owner]
  | @wait t pc cv m next ht hc =>
      obtain ⟨pc, next, rfl, rfl, hcode⟩ := listCode_wait hc
      have hlist : ¬ pc.OnList := fun hl => by cases pc <;> first | exact hl.elim | cases hcode
      refine follows_stmt h hlist ht (.wait (running ht) hcode) ?_
      refine h.update ?_ h.fresh rfl rfl rfl rfl (at_stmt ht)
        (atStatement_stopped (by simp))
      simp only [State.setThread, State.setOwner, h.owner]
  | @signal t pc cv next u pc' ht hc hu hs =>
      obtain ⟨pc, j, rfl, hlist, hcode, hj⟩ := listCode_lift hc (by simp)
      cases j <;> cases hj
      have hasleep : c.threads u = .asleep pc'.whole := by
        rw [h.threads, hu]
        rfl
      have hsleeps := wholeThread_sleepsOn.mpr hs
      have hut : t ≠ u := by
        rintro rfl
        rw [ht] at hu
        cases hu
      have hwoken : Shows (s.setThread u (.woken pc')) (c.setThread u (.woken pc'.whole)) := by
        refine h.update h.owner h.fresh rfl rfl rfl rfl ?_
          (atStatement_stopped (by simp))
        rw [hu]
        exact atStatement_stopped (by simp)
      refine follows_stmt h hlist ht (.signal (running ht) hcode hasleep hsleeps) ?_
      refine hwoken.update h.owner h.fresh rfl rfl rfl rfl ?_ Shows.atStatement_stmt
      have hthread : (s.setThread u (.woken pc')).threads t = s.threads t := Function.update_of_ne hut ..
      rw [hthread]
      exact at_stmt ht
  | @signalNone t pc cv next ht hc hnone =>
      obtain ⟨pc, j, rfl, hlist, hcode, hj⟩ := listCode_lift hc (by simp)
      cases j <;> cases hj
      refine follows_stmt h hlist ht (.signalNone (running ht) hcode fun u hs => ?_) ?_
      · rw [h.threads, wholeThread_sleepsOn] at hs
        exact hnone u hs
      exact h.update h.owner h.fresh rfl rfl rfl rfl (at_stmt ht) Shows.atStatement_stmt
  | @broadcast t pc cv next th ht hc hall =>
      obtain ⟨pc, j, rfl, hlist, hcode, hj⟩ := listCode_lift hc (by simp)
      cases j <;> cases hj
      have hself : th t = .running (.stmt pc) := by
        rcases hall t with ⟨pc', hu, -⟩ | ⟨-, hw⟩
        · rw [ht] at hu
          cases hu
        · exact hw.trans ht
      have hwoken : Shows ({ s with threads := th } : ListSystem T Q)
          ({ c with threads := fun u => wholeThread (th u) } : System T Q) := by
        refine h.move h.owner h.fresh (fun _ => rfl) h.backend (fun _ => rfl) (fun _ => rfl) fun u => ?_
        rcases hall u with ⟨pc', hu, -, hw⟩ | ⟨-, hw⟩
        · refine .inr ⟨?_, ?_⟩
          · rw [hu]
            exact atStatement_stopped (by simp)
          · change AtStatement (th u)
            rw [hw]
            exact atStatement_stopped (by simp)
        · exact .inl hw
      have hcond (u : T) : (∃ pc', c.threads u = .asleep pc' ∧ SleepsOn code (c.threads u) cv ∧
          wholeThread (th u) = .woken pc') ∨
            (¬ SleepsOn code (c.threads u) cv ∧ wholeThread (th u) = c.threads u) := by
        rcases hall u with ⟨pc', hu, hs, hw⟩ | ⟨hs, hw⟩
        · refine .inl ⟨pc'.whole, ?_, ?_, by rw [hw]; rfl⟩
          · rw [h.threads, hu]
            rfl
          · rw [h.threads, wholeThread_sleepsOn]
            exact hs
        · rw [h.threads, wholeThread_sleepsOn, hw]
          exact .inr ⟨hs, rfl⟩
      refine follows_stmt h hlist ht (.broadcast (running ht) hcode hcond) ?_
      refine hwoken.update h.owner h.fresh rfl rfl rfl rfl ?_ Shows.atStatement_stmt
      change AtStatement (th t)
      rw [hself]
      exact Shows.atStatement_stmt
  | @alloc t pc next ht hc =>
      obtain ⟨pc, j, rfl, hlist, hcode, hj⟩ := listCode_lift hc (by simp)
      cases j <;> cases hj
      refine follows_stmt h hlist ht (.alloc (running ht) hcode) ?_
      refine h.update (x := .running (.stmt _)) h.owner ?_ rfl rfl rfl ?_ (at_stmt ht)
        Shows.atStatement_stmt
      · simp only [State.goTo, h.fresh]
      · simp only [State.goTo, h.fresh]
        rfl
  | @allocFails t pc next ht hc =>
      obtain ⟨pc, j, rfl, hlist, hcode, hj⟩ := listCode_lift hc (by simp)
      cases j <;> cases hj
      refine follows_stmt h hlist ht (.allocFails (running ht) hcode) ?_
      exact h.update h.owner h.fresh rfl rfl rfl rfl (at_stmt ht) Shows.atStatement_stmt
  | @goto t pc next ht hc =>
      obtain ⟨pc, j, rfl, hlist, hcode, hj⟩ := listCode_lift hc (by simp)
      cases j <;> cases hj
      refine follows_stmt h hlist ht (.goto (running ht) hcode) ?_
      exact h.update h.owner h.fresh rfl rfl rfl rfl (at_stmt ht) Shows.atStatement_stmt
  | @stop t pc ht hc =>
      obtain ⟨pc, j, rfl, hlist, hcode, hj⟩ := listCode_lift hc (by simp)
      cases j <;> cases hj
      refine follows_stmt h hlist ht (.stop (running ht) hcode) ?_
      exact h.update h.owner h.fresh rfl rfl rfl rfl (at_stmt ht)
        (atStatement_stopped (by simp))

end Runs

end UoftOs.MsgQueue
