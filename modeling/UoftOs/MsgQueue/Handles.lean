import Mathlib.Data.Finset.Card
import UoftOs.MsgQueue.Segments

/-!
# The reference counts of a backend

`Counted mq handles flags` says that the three counters of a backend count its
open handles. Opening and closing keep it, so no assertion of `mq_close` fails.
-/

namespace UoftOs.MsgQueue

abbrev HandleId := Nat

variable {N : Type}

/-- The open handles with one of the flags in `mask`. -/
def openWith (handles : Finset HandleId) (flags : HandleId → CInt) (mask : CInt) :
    Finset HandleId :=
  handles.filter fun h => hasAny (flags h) mask = true

/-- The counters count the open handles. -/
structure Counted (mq : MqBackend N) (handles : Finset HandleId) (flags : HandleId → CInt) :
    Prop where
  refs : mq.refs = handles.card
  readers : mq.readers = (openWith handles flags msgQueueReader).card
  writers : mq.writers = (openWith handles flags msgQueueWriter).card

section Masks

theorem hasAny_or (x y z : CInt) : hasAny x (y ||| z) = (hasAny x y || hasAny x z) := by
  have hzero : x &&& (y ||| z) = 0 ↔ x &&& y = 0 ∧ x &&& z = 0 := by
    rw [BitVec.and_or_distrib_left]
    exact BitVec.or_eq_zero_iff
  rw [Bool.eq_iff_iff, Bool.or_eq_true]
  simp only [hasAny, bne_iff_ne, ne_eq, hzero, not_and_or]

theorem hasAny_comm (x y : CInt) : hasAny x y = hasAny y x := by
  rw [hasAny, hasAny, BitVec.and_comm]

theorem hasAny_set (x m n : CInt) : hasAny (x ||| m) n = (hasAny x n || hasAny m n) := by
  rw [hasAny_comm, hasAny_or, hasAny_comm n x, hasAny_comm n m]

theorem hasAny_clear_self (x m : CInt) : hasAny (x &&& ~~~m) m = false := by
  simp [hasAny, BitVec.and_assoc]

theorem hasAny_clear_other (x : CInt) {m n : CInt} (h : ~~~m &&& n = n) :
    hasAny (x &&& ~~~m) n = hasAny x n := by
  rw [hasAny, hasAny, BitVec.and_assoc, h]

end Masks

section OpenWith
variable {handles : Finset HandleId} {flags : HandleId → CInt} {mask : CInt}

theorem openWith_card_le : (openWith handles flags mask).card ≤ handles.card :=
  Finset.card_filter_le _ _

theorem openWith_card_insert {new : HandleId} {fl : CInt} (hnew : new ∉ handles) :
    (openWith (insert new handles) (Function.update flags new fl) mask).card =
      (openWith handles flags mask).card + if hasAny fl mask then 1 else 0 := by
  have hold : openWith handles (Function.update flags new fl) mask =
      openWith handles flags mask := by
    refine Finset.filter_congr fun h hh => ?_
    have hne : h ≠ new := by
      rintro rfl
      exact hnew hh
    rw [Function.update_of_ne hne]
  have hnot : new ∉ openWith handles flags mask := fun hm => hnew (Finset.mem_filter.mp hm).1
  by_cases hf : hasAny fl mask = true
  · have hins : openWith (insert new handles) (Function.update flags new fl) mask =
        insert new (openWith handles flags mask) := by
      rw [← hold]
      exact (Finset.filter_insert _ _ _).trans (if_pos (by rw [Function.update_self]; exact hf))
    rw [hins, Finset.card_insert_of_notMem hnot, if_pos hf]
  · have hins : openWith (insert new handles) (Function.update flags new fl) mask =
        openWith handles flags mask := by
      rw [← hold]
      exact (Finset.filter_insert _ _ _).trans (if_neg (by rw [Function.update_self]; exact hf))
    rw [hins, if_neg hf, Nat.add_zero]

theorem openWith_card_erase {h : HandleId} (hh : h ∈ handles) :
    (openWith handles flags mask).card =
      (openWith (handles.erase h) flags mask).card + if hasAny (flags h) mask then 1 else 0 := by
  have herase : openWith (handles.erase h) flags mask = (openWith handles flags mask).erase h :=
    Finset.filter_erase _ _ _
  by_cases hf : hasAny (flags h) mask = true
  · have hmem : h ∈ openWith handles flags mask := Finset.mem_filter.mpr ⟨hh, hf⟩
    rw [herase, if_pos hf, Finset.card_erase_add_one hmem]
  · have hmem : h ∉ openWith handles flags mask := fun hm => hf (Finset.mem_filter.mp hm).2
    rw [herase, if_neg hf, Nat.add_zero, Finset.erase_eq_of_notMem hmem]

theorem openWith_card_single {h : HandleId} :
    (openWith {h} flags mask).card = if hasAny (flags h) mask then 1 else 0 := by
  rw [openWith, Finset.filter_singleton]
  split <;> rfl

end OpenWith

section Open
variable (mq : MqBackend N) (flags : CInt)

@[simp] theorem mqOpen_buffer : (mqOpen mq flags).buffer = mq.buffer := by
  unfold mqOpen
  split <;> split <;> rfl

@[simp] theorem mqOpen_queueListHead : (mqOpen mq flags).queueListHead = mq.queueListHead := by
  unfold mqOpen
  split <;> split <;> rfl

@[simp] theorem mqOpen_queueEvent : (mqOpen mq flags).queueEvent = mq.queueEvent := by
  unfold mqOpen
  split <;> split <;> rfl

@[simp] theorem mqOpen_refs : (mqOpen mq flags).refs = mq.refs + 1 := by
  unfold mqOpen
  split <;> split <;> rfl

@[simp] theorem mqOpen_readers : (mqOpen mq flags).readers =
    mq.readers + if hasAny flags msgQueueReader then 1 else 0 := by
  unfold mqOpen
  split <;> split <;> rfl

@[simp] theorem mqOpen_writers : (mqOpen mq flags).writers =
    mq.writers + if hasAny flags msgQueueWriter then 1 else 0 := by
  unfold mqOpen
  split <;> split <;> rfl

@[simp] theorem mqOpen_noReaders : (mqOpen mq flags).noReaders =
    (!hasAny flags msgQueueReader && mq.noReaders) := by
  cases hr : hasAny flags msgQueueReader <;> cases hw : hasAny flags msgQueueWriter <;>
    simp [mqOpen, hr, hw]

@[simp] theorem mqOpen_noWriters : (mqOpen mq flags).noWriters =
    (!hasAny flags msgQueueWriter && mq.noWriters) := by
  cases hr : hasAny flags msgQueueReader <;> cases hw : hasAny flags msgQueueWriter <;>
    simp [mqOpen, hr, hw]

end Open

variable {mq : MqBackend N} {handles : Finset HandleId} {flags : HandleId → CInt}

theorem Counted.open (hc : Counted mq handles flags) {new : HandleId} (hnew : new ∉ handles)
    (fl : CInt) : Counted (mqOpen mq fl) (insert new handles) (Function.update flags new fl) where
  refs := by rw [mqOpen_refs, hc.refs, Finset.card_insert_of_notMem hnew]
  readers := by rw [mqOpen_readers, hc.readers, openWith_card_insert hnew]
  writers := by rw [mqOpen_writers, hc.writers, openWith_card_insert hnew]

variable [Build]

/-- `mq_close` passes its assertions when the counters are large enough. -/
theorem mqClose_eq {fl : CInt} {n r w : Nat} (hn : mq.refs = n + 1)
    (hr : mq.readers = r + if hasAny fl msgQueueReader then 1 else 0)
    (hw : mq.writers = w + if hasAny fl msgQueueWriter then 1 else 0)
    (hrn : r ≤ n) (hwn : w ≤ n) :
    mqClose mq fl = .ok (n == 0, { mq with
      refs := n, readers := r, writers := w
      noReaders := hasAny fl msgQueueReader && r == 0 || mq.noReaders
      noWriters := hasAny fl msgQueueWriter && w == 0 || mq.noWriters }) := by
  have hready : mq.readers ≤ n + 1 := by
    rw [hr]
    split <;> omega
  have hwrite : mq.writers ≤ n + 1 := by
    rw [hw]
    split <;> omega
  have hassert (b : Bool) (hb : b = true) : cAssert b = .ok () := by simp [cAssert, hb]
  by_cases hlast : n = 0
  · obtain rfl : r = 0 := by omega
    obtain rfl : w = 0 := by omega
    subst hlast
    cases hfr : hasAny fl msgQueueReader <;> cases hfw : hasAny fl msgQueueWriter <;>
      simp [mqClose, cAssert, hn, hr, hw, hfr, hfw, bind, Except.bind, pure, Except.pure]
  · have hle₁ : decide (mq.refs ≥ mq.readers) = true := by simpa [hn] using hready
    have hle₂ : decide (mq.refs ≥ mq.writers) = true := by simpa [hn] using hwrite
    have hpos : (mq.refs != 0) = true := by simp [hn]
    rw [mqClose, hassert _ hpos, hassert _ hle₁, hassert _ hle₂]
    cases hfr : hasAny fl msgQueueReader <;> cases hfw : hasAny fl msgQueueWriter <;>
      simp [hn, hr, hw, hfr, hfw, hlast, bind, Except.bind, pure, Except.pure]

/-- What closing a handle other than the last leaves. -/
structure Closed (mq : MqBackend N) (fl : CInt) (mq' : MqBackend N) (ns : List Notify) : Prop where
  buffer : mq'.buffer = mq.buffer
  noReaders : mq'.noReaders = (hasAny fl msgQueueReader && mq'.readers == 0 || mq.noReaders)
  noWriters : mq'.noWriters = (hasAny fl msgQueueWriter && mq'.writers == 0 || mq.noWriters)
  notify : ns = (if mq'.noReaders then [.broadcast .spaceFull] else []) ++
    if mq'.noWriters then [.broadcast .spaceEmpty] else []

/-- Closing destroys the queue with its last handle, and keeps the counts otherwise. -/
theorem msgQueueClose_counted (hc : Counted mq handles flags) {h : HandleId} (hh : h ∈ handles) :
    (handles.erase h = ∅ ∧ msgQueueClose mq (flags h) = .ok (none, [])) ∨
    (handles.erase h ≠ ∅ ∧ ∃ mq' ns, msgQueueClose mq (flags h) = .ok (some mq', ns) ∧
      Counted mq' (handles.erase h) flags ∧ Closed mq (flags h) mq' ns) := by
  have hrun := mqClose_eq (hc.refs.trans (Finset.card_erase_add_one hh).symm)
    (hc.readers.trans (openWith_card_erase hh)) (hc.writers.trans (openWith_card_erase hh))
    openWith_card_le openWith_card_le
  by_cases hlast : handles.erase h = ∅
  · left
    refine ⟨hlast, ?_⟩
    simp [msgQueueClose, hrun, hlast, bind, Except.bind, pure, Except.pure]
  · right
    have hpos : ((handles.erase h).card == 0) = false := by simpa using hlast
    rw [msgQueueClose, hrun]
    simp only [hpos, bind, Except.bind, pure, Except.pure]
    generalize hnr : (hasAny (flags h) msgQueueReader &&
      (openWith (handles.erase h) flags msgQueueReader).card == 0 || mq.noReaders) = nr
    generalize hnw : (hasAny (flags h) msgQueueWriter &&
      (openWith (handles.erase h) flags msgQueueWriter).card == 0 || mq.noWriters) = nw
    cases nr <;> cases nw <;>
      exact ⟨hlast, _, _, rfl, ⟨rfl, rfl, rfl⟩, ⟨rfl, hnr.symm, hnw.symm, rfl⟩⟩

/-- Closing a handle other than the last sets the events of what is gone. -/
theorem msgQueueClose_events (hc : Counted mq handles flags) {h : HandleId} (hh : h ∈ handles)
    {mq' : MqBackend N} {ns : List Notify} (hrun : msgQueueClose mq (flags h) = .ok (some mq', ns)) :
    mq'.queueEvent = mq.queueEvent
      ||| (if mq'.noReaders then mqpollWritable ||| mqpollNoreaders else 0)
      ||| (if mq'.noWriters then mqpollReadable ||| mqpollNowriters else 0) := by
  have hclose := mqClose_eq (hc.refs.trans (Finset.card_erase_add_one hh).symm)
    (hc.readers.trans (openWith_card_erase hh)) (hc.writers.trans (openWith_card_erase hh))
    openWith_card_le openWith_card_le
  rw [msgQueueClose, hclose] at hrun
  cases hlast : (handles.erase h).card == 0 with
  | true => simp [hlast, bind, Except.bind, pure, Except.pure] at hrun
  | false =>
      simp only [hlast, bind, Except.bind, pure, Except.pure, Bool.false_eq_true, if_false] at hrun
      revert hrun
      generalize (hasAny (flags h) msgQueueReader &&
        (openWith (handles.erase h) flags msgQueueReader).card == 0 || mq.noReaders) = nr
      generalize (hasAny (flags h) msgQueueWriter &&
        (openWith (handles.erase h) flags msgQueueWriter).card == 0 || mq.noWriters) = nw
      intro hrun
      cases nr <;> cases nw <;>
        · obtain ⟨hmq, -⟩ := Prod.mk.inj (Except.ok.inj hrun)
          obtain rfl := Option.some.inj hmq
          simp [BitVec.or_assoc]

end UoftOs.MsgQueue
