import Mathlib.Data.BitVec
import UoftOs.MsgQueue.Transfers

/-!
# The producer and the consumer

`prodcon.c` runs two threads over one queue. The producer sends how many numbers
will come, then the numbers; the consumer adds up what it receives and at the end
compares its sum with the producer's. A step is one segment of a queue call, one
close, one test of a loop, or the join.

## Implementation notes

Sums are kept in 32 bits. A local that a read fills starts from any value, and
the numbers are any answers of `rand() % 64`. The process ends with a failed
assertion and with the return of `main`.
-/

namespace UoftOs.MsgQueue

open Lib.Frames Lib.Transition Queue

/-- `sizeof(int)` -/
def sizeofInt : UInt64 := 4

/-- The `int` in memory. -/
def intBytes (n : CInt) : List UInt8 := leBytes 4 n.toNat

/-- An `int` after bytes have been stored over it from its start. -/
def storeInt (old : CInt) (stored : List UInt8) : CInt :=
  BitVec.ofNat 32 (leValue (stored ++ (intBytes old).drop stored.length))

namespace Prodcon

inductive Side where
  | producer
  | consumer
  deriving DecidableEq, Repr

/-- Where `producer` stands. -/
inductive Producer where
  /-- It writes the count. -/
  | sendCount
  | test (i sum : CInt)
  | send (i sum number : CInt)
  | close (sum : CInt)
  /-- It has left its sum in the context and returned. -/
  | exited (sum : CInt)
  deriving DecidableEq, Repr

/-- Where `main` stands from its first read on. -/
inductive Consumer where
  | readCount (count : CInt)
  | test (count i sum : CInt)
  | read (count i sum value : CInt)
  | close (sum : CInt)
  | join (sum : CInt)
  /-- The sums agree and `main` returns 0. -/
  | finished (sum : CInt)
  /-- A read has failed and `main` returns 1. -/
  | readFailed
  deriving DecidableEq, Repr

/-- The program while its threads run. -/
structure Program where
  queue : Queue Side
  producer : Producer
  consumer : Consumer
  /-- An assertion has failed. -/
  failed : Bool

/-- The handles that `main` opens: its own and the one in the producer's context. -/
def readerHandle : HandleId := 0

def writerHandle : HandleId := 1

namespace Producer

/-- The queue call in progress or about to start. -/
def call (numberCount : CInt) : Producer → Option Call
  | sendCount => some (.write (intBytes numberCount) sizeofInt)
  | send _ _ number => some (.write (intBytes number) sizeofInt)
  | _ => none

/-- The producer after its call has returned; none when the assertion on it fails. -/
def returns (ret : Int) (errno : Option Errno) : Producer → Option Producer
  | sendCount => if ret = 0 then some (test 0 0) else none
  | send i sum number =>
      if ret ≠ 0 ∧ errno = some .EPIPE then some (close sum)
      -- Any other failure is reported, and the number is added all the same.
      else some (test (i + 1) (sum + number))
  | p => some p

end Producer

namespace Consumer

/-- The consumer is in its call `c` or about to start it. -/
def Calls (c : Call) : Consumer → Prop
  | readCount _ => ∃ msgHead, c = .read sizeofInt msgHead
  | read .. => ∃ msgHead, c = .read sizeofInt msgHead
  | _ => False

/-- The consumer after its read has returned; none when an assertion on it fails. -/
def returns (numberCount : CInt) (result : Int) (stored : List UInt8) : Consumer → Option Consumer
  | readCount count =>
      let count := storeInt count stored
      if result = 4 ∧ count = numberCount then some (test count 0 0) else none
  | read count i sum value =>
      if result = 0 then some (close sum)
      else if result < 0 then some readFailed
      else some (test count (i + 1) (sum + storeInt value stored))
  | c => some c

/-- `main` has returned. -/
def Returned : Consumer → Prop
  | finished _ => True
  | readFailed => True
  | _ => False

end Consumer

namespace Program

/-- The process is alive. -/
def Running (p : Program) : Prop :=
  p.failed = false ∧ p.queue.aborted = false ∧ ¬ p.consumer.Returned

/-- The program after a segment of the producer's call. -/
def afterProducer (p : Program) (queue : Queue Side) (next : Next) : Program :=
  match next with
  | .ret ret errno =>
      match p.producer.returns ret errno with
      | some producer => { p with queue, producer }
      | none => { p with queue, failed := true }
  | _ => { p with queue }

/-- The program after a segment of the consumer's call. -/
def afterConsumer (p : Program) (numberCount : CInt) (queue : Queue Side)
    (seg : Segment Empty) : Program :=
  match seg.next with
  | .ret result _ =>
      match p.consumer.returns numberCount result seg.stored with
      | some consumer => { p with queue, consumer }
      | none => { p with queue, failed := true }
  | _ => { p with queue }

/-- What a step does: a step of the queue, or one of a thread by itself. -/
inductive Act where
  | queue (l : Label Side)
  | own (t : Side)

/-- The steps of the program that is to transfer `numberCount` numbers. -/
inductive Move [Build] (numberCount : CInt) (p : Program) : Act → Program → Prop
  | send {c seg queue} (hr : p.Running) (hc : p.producer.call numberCount = some c)
      (hq : Step p.queue (.segment .producer writerHandle c seg) queue) :
      Move numberCount p (.queue (.segment .producer writerHandle c seg))
        (p.afterProducer queue seg.next)
  | sendAborts {c queue} (hr : p.Running) (hc : p.producer.call numberCount = some c)
      (hq : Step p.queue (.abort .producer writerHandle c) queue) :
      Move numberCount p (.queue (.abort .producer writerHandle c)) { p with queue }
  | receive {c seg queue} (hr : p.Running) (hc : p.consumer.Calls c)
      (hq : Step p.queue (.segment .consumer readerHandle c seg) queue) :
      Move numberCount p (.queue (.segment .consumer readerHandle c seg))
        (p.afterConsumer numberCount queue seg)
  | receiveAborts {c queue} (hr : p.Running) (hc : p.consumer.Calls c)
      (hq : Step p.queue (.abort .consumer readerHandle c) queue) :
      Move numberCount p (.queue (.abort .consumer readerHandle c)) { p with queue }
  | nextNumber {i sum number} (hr : p.Running) (hp : p.producer = .test i sum)
      (hlt : i.slt numberCount = true) (hn : number.toNat < 64) :
      Move numberCount p (.own .producer) { p with producer := .send i sum number }
  | allSent {i sum} (hr : p.Running) (hp : p.producer = .test i sum)
      (hge : i.slt numberCount = false) :
      Move numberCount p (.own .producer) { p with producer := .close sum }
  | producerCloses {sum queue} (hr : p.Running) (hp : p.producer = .close sum)
      (hq : Step p.queue (.close writerHandle) queue) :
      Move numberCount p (.queue (.close writerHandle))
        { p with queue, producer := .exited sum }
  | nextRead {count i sum value} (hr : p.Running) (hc : p.consumer = .test count i sum)
      (hlt : i.slt count = true) :
      Move numberCount p (.own .consumer) { p with consumer := .read count i sum value }
  | allRead {count i sum} (hr : p.Running) (hc : p.consumer = .test count i sum)
      (hge : i.slt count = false) :
      Move numberCount p (.own .consumer) { p with consumer := .close sum }
  | consumerCloses {sum queue} (hr : p.Running) (hc : p.consumer = .close sum)
      (hq : Step p.queue (.close readerHandle) queue) :
      Move numberCount p (.queue (.close readerHandle)) { p with queue, consumer := .join sum }
  | agrees {sum} (hr : p.Running) (hc : p.consumer = .join sum)
      (hp : p.producer = .exited sum) :
      Move numberCount p (.own .consumer) { p with consumer := .finished sum }
  | differs {sum expectedSum} (hr : p.Running) (hc : p.consumer = .join sum)
      (hp : p.producer = .exited expectedSum) (hne : expectedSum ≠ sum) :
      Move numberCount p (.own .consumer) { p with failed := true }

/-- The steps of the queue in a run. -/
def labels : List Act → List (Label Side)
  | [] => []
  | .queue l :: as => l :: labels as
  | .own _ :: as => labels as

/-- The program when `main` has created a queue of `capacity` bytes, opened the
producer's handle and started the producer. -/
def IsStarted [Build] (capacity : UInt64) (p : Program) : Prop :=
  ∃ block answer mq, msgQueueCreate block answer capacity msgQueueReader = .ok (.ok mq) ∧
    Step (created mq msgQueueReader) (.open readerHandle writerHandle msgQueueWriter) p.queue ∧
    p.producer = .sendCount ∧ (∃ count, p.consumer = .readCount count) ∧ p.failed = false

end Program

/-! ## Numbers as messages -/

@[simp] theorem length_intBytes (n : CInt) : (intBytes n).length = 4 := length_leBytes _ _

theorem storeInt_intBytes (old n : CInt) : storeInt old (intBytes n) = n := by
  rw [storeInt, List.drop_eq_nil_of_le (by simp), List.append_nil, intBytes, leValue_leBytes]
  apply BitVec.eq_of_toNat_eq
  have hlt := n.isLt
  rw [BitVec.toNat_ofNat]
  omega

theorem intBytes_injective : Function.Injective intBytes := by
  intro m n h
  have hstored := congrArg (storeInt 0) h
  rwa [storeInt_intBytes, storeInt_intBytes] at hstored

/-- The loop variable does not overflow below the count. -/
theorem toInt_succ {i count : CInt} (h : i.slt count = true) : (i + 1).toInt = i.toInt + 1 := by
  rw [BitVec.slt_iff_toInt_lt] at h
  have hcount := BitVec.toInt_lt (x := count)
  have hi := BitVec.le_toInt i
  have hone : (1 : CInt).toInt = 1 := rfl
  rw [BitVec.toInt_add, hone]
  exact Int.bmod_eq_of_le (by omega) (by omega)

/-! ## What every run keeps -/

namespace Producer

/-- The writer handle is open. -/
def Holds : Producer → Prop
  | exited _ => False
  | _ => True

/-- The messages written when the numbers `ns` have been sent. -/
def sent (numberCount : CInt) (ns : List CInt) : Producer → List (List UInt8)
  | sendCount => []
  | _ => (numberCount :: ns).map intBytes

/-- The numbers `ns` have been sent and added. -/
def Sends (numberCount : CInt) (ns : List CInt) : Producer → Prop
  | sendCount => ns = []
  | test i sum => i.toInt = ns.length ∧ sum = ns.sum ∧ ns.length ≤ numberCount.toInt.toNat
  | send i sum _ => i.toInt = ns.length ∧ sum = ns.sum ∧ ns.length < numberCount.toInt.toNat
  | close sum => sum = ns.sum ∧ ns.length = numberCount.toInt.toNat
  | exited sum => sum = ns.sum ∧ ns.length = numberCount.toInt.toNat

end Producer

namespace Consumer

/-- The reader handle is open. -/
def Holds : Consumer → Prop
  | join _ => False
  | finished _ => False
  | _ => True

/-- The numbers `ns` have been received and added. -/
def Adds (numberCount : CInt) (ns : List CInt) : Consumer → Prop
  | readCount _ => False
  | test count i sum => count = numberCount ∧ i.toInt = ns.length ∧ sum = ns.sum ∧
      ns.length ≤ numberCount.toInt.toNat
  | read count i sum _ => count = numberCount ∧ i.toInt = ns.length ∧ sum = ns.sum ∧
      ns.length < numberCount.toInt.toNat
  | close sum => sum = ns.sum ∧ ns.length = numberCount.toInt.toNat
  | join sum => sum = ns.sum ∧ ns.length = numberCount.toInt.toNat
  | finished sum => sum = ns.sum ∧ ns.length = numberCount.toInt.toNat
  | readFailed => False

/-- The consumer has received the messages `rs` and added the numbers in them. -/
def Received (numberCount : CInt) (rs : List (List UInt8)) (c : Consumer) : Prop :=
  (∃ count, c = readCount count) ∧ rs = [] ∨
    ∃ ns, rs = (numberCount :: ns).map intBytes ∧ c.Adds numberCount ns

end Consumer

/-- The queue serves the calls of the two threads through the two handles. -/
structure Wired (numberCount : CInt) (queue : Queue Side) (producer : Producer)
    (consumer : Consumer) : Prop where
  reader : queue.flags readerHandle = msgQueueReader
  writer : queue.flags writerHandle = msgQueueWriter
  readerOpen : readerHandle ∈ queue.handles ↔ consumer.Holds
  writerOpen : writerHandle ∈ queue.handles ↔ producer.Holds
  sends : ∀ k, queue.calls .producer = some k →
    k.handle = writerHandle ∧ producer.call numberCount = some k.call
  reads : ∀ k, queue.calls .consumer = some k →
    k.handle = readerHandle ∧ consumer.Calls k.call
  size : ∀ mq, queue.mq = some mq → 12 < mq.buffer.size.toNat
  hasWriter : ∀ mq, queue.mq = some mq → producer.Holds → mq.noWriters = false
  hasReader : ∀ mq, queue.mq = some mq → consumer.Holds → mq.noReaders = false

/-- The program after the acts `as`: `ns` are the numbers sent, `ms` the messages in
the ring. -/
structure Flow [Build] (numberCount : CInt) (as : List Program.Act) (p : Program)
    (ns : List CInt) (ms : List (List UInt8)) : Prop where
  passed : p.failed = false
  delivered : Delivered (Program.labels as) p.queue ms
  wired : Wired numberCount p.queue p.producer p.consumer
  sent : written (Program.labels as) = p.producer.sent numberCount ns
  sends : p.producer.Sends numberCount ns
  received : p.consumer.Received numberCount (returned (Program.labels as))

namespace Flow
variable [Build] {numberCount : CInt} {as : List Program.Act} {p : Program} {ns : List CInt}
  {ms : List (List UInt8)}

/-- Every message in the ring is a number. -/
theorem length_message (h : Flow numberCount as p ns ms) {m : List UInt8} (hm : m ∈ ms) :
    m.length = 4 := by
  have hmem : m ∈ p.producer.sent numberCount ns := by
    rw [← h.sent, ← h.delivered.fifo]
    exact List.mem_append_right _ hm
  cases hp : p.producer with
  | sendCount =>
      rw [hp] at hmem
      cases hmem
  | _ =>
      rw [hp] at hmem
      obtain ⟨n, -, rfl⟩ := List.mem_map.mp hmem
      exact length_intBytes n

/-- What the consumer has received is a prefix of what the producer has sent. -/
theorem received_prefix (h : Flow numberCount as p ns ms) {rs : List CInt}
    (hrs : returned (Program.labels as) = (numberCount :: rs).map intBytes) :
    p.producer ≠ .sendCount ∧ ∃ rest, ns = rs ++ rest ∧ ms = rest.map intBytes := by
  have hfifo := h.delivered.fifo
  rw [h.sent, hrs] at hfifo
  have hne : p.producer ≠ .sendCount := by
    intro hp
    rw [hp] at hfifo
    cases hfifo
  have hsent : p.producer.sent numberCount ns = (numberCount :: ns).map intBytes := by
    cases hp : p.producer with
    | sendCount => exact absurd hp hne
    | _ => rfl
  rw [hsent, List.map_cons, List.map_cons, List.cons_append] at hfifo
  obtain ⟨ns₁, rest, rfl, hns₁, hrest⟩ := List.map_eq_append_iff.mp (List.cons.inj hfifo).2.symm
  obtain rfl := (List.map_injective_iff.mpr intBytes_injective) hns₁
  exact ⟨hne, rest, rfl, hrest.symm⟩

/-- While the producer writes, the consumer has its handle open. -/
theorem consumer_holds (h : Flow numberCount as p ns ms) {c : Call}
    (hc : p.producer.call numberCount = some c) : p.consumer.Holds := by
  rcases h.received with ⟨⟨count, hcons⟩, -⟩ | ⟨rs, hrs, hadds⟩
  · rw [hcons]
    trivial
  · obtain ⟨hne, rest, rfl, -⟩ := h.received_prefix hrs
    have hsends := h.sends
    cases hp : p.producer with
    | sendCount => exact absurd hp hne
    | send i sum number =>
        rw [hp] at hsends
        have hlt := hsends.2.2
        rw [List.length_append] at hlt
        cases hcons : p.consumer with
        | join sum =>
            rw [hcons] at hadds
            have := hadds.2
            omega
        | finished sum =>
            rw [hcons] at hadds
            have := hadds.2
            omega
        | _ => trivial
    | _ =>
        rw [hp] at hc
        cases hc

/-- While the consumer waits for a message that is not there, the producer has its
handle open. -/
theorem producer_holds (h : Flow numberCount as p ns []) {c : Call}
    (hc : p.consumer.Calls c) : p.producer.Holds := by
  have hsends := h.sends
  cases hp : p.producer with
  | exited sum =>
      rw [hp] at hsends
      have hfifo := h.delivered.fifo
      rw [List.append_nil, h.sent, hp] at hfifo
      rcases h.received with ⟨-, hnil⟩ | ⟨rs, hrs, hadds⟩
      · rw [hnil] at hfifo
        cases hfifo
      · obtain ⟨-, rest, rfl, hrest⟩ := h.received_prefix hrs
        obtain rfl := List.map_eq_nil_iff.mp hrest.symm
        cases hcons : p.consumer with
        | readCount count =>
            rw [hcons] at hadds
            exact hadds.elim
        | read count i sum value =>
            rw [hcons] at hadds
            have hlt := hadds.2.2.2
            have heq := hsends.2
            rw [List.append_nil] at heq
            omega
        | _ =>
            rw [hcons] at hc
            exact hc.elim
  | _ => trivial

theorem writable (h : Flow numberCount as p ns ms) {c : Call}
    (hc : p.producer.call numberCount = some c) : Writable p.queue writerHandle sizeofInt where
  flag := by
    rw [h.wired.writer]
    decide
  blocks := by
    rw [h.wired.writer]
    decide
  fits := by decide
  admitted mq hmq := by
    refine ⟨by decide, h.wired.hasReader mq hmq (h.consumer_holds hc), ?_⟩
    have hsize := h.wired.size mq hmq
    rw [UInt64.le_iff_toNat_le, show (sizeofInt + sizeofSizeT).toNat = 12 from rfl]
    omega

theorem readable (h : Flow numberCount as p ns ms) : Readable p.queue ms readerHandle sizeofInt where
  flag := by
    rw [h.wired.reader]
    decide
  blocks := by
    rw [h.wired.reader]
    decide
  fits m hm := Nat.le_of_eq (h.length_message hm)

end Flow

section Wiring
variable [Build] {numberCount : CInt} {queue queue' : Queue Side} {producer producer' : Producer}
  {consumer consumer' : Consumer} {c : Call} {seg : Segment Empty} {ms ms' : List (List UInt8)}

/-- A segment of the producer keeps the wiring if the producer stays in its call
exactly as the segment says. -/
theorem Wired.producer_segment (hw : Wired numberCount queue producer consumer)
    (hstep : Step queue (.segment .producer writerHandle c seg) queue')
    (ho : Outcome queue ms (.segment .producer writerHandle c seg) queue' ms')
    (hholds : producer'.Holds ↔ producer.Holds)
    (hcall : ∀ k, pendingAfter writerHandle c seg.next = some k →
      producer'.call numberCount = some k.call) : Wired numberCount queue' producer' consumer := by
  obtain ⟨hhandles, hflags, hmq', hother, hown⟩ := hstep.segment_frame
  obtain ⟨mq, hmq, hsame⟩ := ho.sameHandles
  refine ⟨by rw [hflags, hw.reader], by rw [hflags, hw.writer], by rw [hhandles, hw.readerOpen],
    by rw [hhandles, hw.writerOpen, hholds], fun k hk => ?_, fun k hk => ?_, ?_, ?_, ?_⟩
  · rw [hown] at hk
    refine ⟨?_, hcall k hk⟩
    cases hnext : seg.next <;> rw [hnext] at hk <;> cases hk <;> rfl
  · rw [hother _ (by decide)] at hk
    exact hw.reads k hk
  · intro mq' hmq''
    obtain rfl := Option.some.inj (hmq'.symm.trans hmq'')
    rw [hsame.size]
    exact hw.size mq hmq
  · intro mq' hmq'' hh
    obtain rfl := Option.some.inj (hmq'.symm.trans hmq'')
    rw [hsame.noWriters]
    exact hw.hasWriter mq hmq (hholds.mp hh)
  · intro mq' hmq'' hh
    obtain rfl := Option.some.inj (hmq'.symm.trans hmq'')
    rw [hsame.noReaders]
    exact hw.hasReader mq hmq hh

/-- The same for a segment of the consumer. -/
theorem Wired.consumer_segment (hw : Wired numberCount queue producer consumer)
    (hstep : Step queue (.segment .consumer readerHandle c seg) queue')
    (ho : Outcome queue ms (.segment .consumer readerHandle c seg) queue' ms')
    (hholds : consumer'.Holds ↔ consumer.Holds)
    (hcall : ∀ k, pendingAfter readerHandle c seg.next = some k → consumer'.Calls k.call) :
    Wired numberCount queue' producer consumer' := by
  obtain ⟨hhandles, hflags, hmq', hother, hown⟩ := hstep.segment_frame
  obtain ⟨mq, hmq, hsame⟩ := ho.sameHandles
  refine ⟨by rw [hflags, hw.reader], by rw [hflags, hw.writer],
    by rw [hhandles, hw.readerOpen, hholds], by rw [hhandles, hw.writerOpen], fun k hk => ?_,
    fun k hk => ?_, ?_, ?_, ?_⟩
  · rw [hother _ (by decide)] at hk
    exact hw.sends k hk
  · rw [hown] at hk
    refine ⟨?_, hcall k hk⟩
    cases hnext : seg.next <;> rw [hnext] at hk <;> cases hk <;> rfl
  · intro mq' hmq''
    obtain rfl := Option.some.inj (hmq'.symm.trans hmq'')
    rw [hsame.size]
    exact hw.size mq hmq
  · intro mq' hmq'' hh
    obtain rfl := Option.some.inj (hmq'.symm.trans hmq'')
    rw [hsame.noWriters]
    exact hw.hasWriter mq hmq hh
  · intro mq' hmq'' hh
    obtain rfl := Option.some.inj (hmq'.symm.trans hmq'')
    rw [hsame.noReaders]
    exact hw.hasReader mq hmq (hholds.mp hh)

omit [Build] in
/-- A thread that moves on its own starts no call, or has none in progress. -/
theorem Wired.own (hw : Wired numberCount queue producer consumer)
    (hp : producer'.Holds ↔ producer.Holds) (hc : consumer'.Holds ↔ consumer.Holds)
    (hsends : producer' = producer ∨ producer.call numberCount = none)
    (hreads : consumer' = consumer ∨ ∀ c, ¬ consumer.Calls c) :
    Wired numberCount queue producer' consumer' := by
  refine ⟨hw.reader, hw.writer, hw.readerOpen.trans hc.symm, hw.writerOpen.trans hp.symm,
    fun k hk => ?_, fun k hk => ?_, hw.size, fun mq hmq hh => hw.hasWriter mq hmq (hp.mp hh),
    fun mq hmq hh => hw.hasReader mq hmq (hc.mp hh)⟩
  · rcases hsends with rfl | hnone
    · exact hw.sends k hk
    · have hcall := (hw.sends k hk).2
      rw [hnone] at hcall
      cases hcall
  · rcases hreads with rfl | hnone
    · exact hw.reads k hk
    · exact absurd (hw.reads k hk).2 (hnone _)

theorem Wired.producer_closes {sum : CInt} (hw : Wired numberCount queue (.close sum) consumer)
    (ho : Outcome queue ms (.close writerHandle) queue' ms') :
    Wired numberCount queue' (.exited sum) consumer := by
  obtain ⟨-, hhandles, hflags, hcalls, hmq⟩ := ho.close_frame
  have hne : readerHandle ≠ writerHandle := by decide
  refine ⟨by rw [hflags, hw.reader], by rw [hflags, hw.writer], ?_, ?_, fun k hk => ?_,
    fun k hk => hw.reads k (hcalls ▸ hk), ?_, fun mq' hmq' hh => hh.elim, ?_⟩
  · rw [hhandles, Finset.mem_erase, hw.readerOpen]
    exact and_iff_right hne
  · rw [hhandles]
    exact iff_of_false (Finset.notMem_erase _ _) id
  · cases (hw.sends k (hcalls ▸ hk)).2
  · intro mq' hmq'
    obtain ⟨mq, ns, hmq, hclosed⟩ := hmq mq' hmq'
    rw [hclosed.buffer]
    exact hw.size mq hmq
  · intro mq' hmq' hh
    obtain ⟨mq, ns, hmq, hclosed⟩ := hmq mq' hmq'
    rw [hclosed.noReaders, hw.writer, hw.hasReader mq hmq hh]
    rfl

theorem Wired.consumer_closes {sum : CInt} (hw : Wired numberCount queue producer (.close sum))
    (ho : Outcome queue ms (.close readerHandle) queue' ms') :
    Wired numberCount queue' producer (.join sum) := by
  obtain ⟨-, hhandles, hflags, hcalls, hmq⟩ := ho.close_frame
  have hne : writerHandle ≠ readerHandle := by decide
  refine ⟨by rw [hflags, hw.reader], by rw [hflags, hw.writer], ?_, ?_,
    fun k hk => hw.sends k (hcalls ▸ hk), fun k hk => ?_, ?_, ?_, fun mq' hmq' hh => hh.elim⟩
  · rw [hhandles]
    exact iff_of_false (Finset.notMem_erase _ _) id
  · rw [hhandles, Finset.mem_erase, hw.writerOpen]
    exact and_iff_right hne
  · exact (hw.reads k (hcalls ▸ hk)).2.elim
  · intro mq' hmq'
    obtain ⟨mq, ns, hmq, hclosed⟩ := hmq mq' hmq'
    rw [hclosed.buffer]
    exact hw.size mq hmq
  · intro mq' hmq' hh
    obtain ⟨mq, ns, hmq, hclosed⟩ := hmq mq' hmq'
    rw [hclosed.noWriters, hw.reader, hw.hasWriter mq hmq hh]
    rfl

end Wiring

namespace Flow
variable [Build] {numberCount : CInt} {as : List Program.Act} {p p' : Program} {ns : List CInt}
  {ms ms' : List (List UInt8)} {c : Call} {seg : Segment Empty} {queue : Queue Side}

omit [Build] in
theorem labels_concat (as : List Program.Act) (l : Label Side) :
    Program.labels (as ++ [.queue l]) = Program.labels as ++ [l] := by
  induction as with
  | nil => rfl
  | cons a as ih => cases a <;> simp [Program.labels, ih]

omit [Build] in
theorem labels_own (as : List Program.Act) (t : Side) :
    Program.labels (as ++ [.own t]) = Program.labels as := by
  induction as with
  | nil => rfl
  | cons a as ih => cases a <;> simp [Program.labels, ih]

/-- What a step does to the queue and the messages in it. -/
inductive QueueMoves (queue : Queue Side) (ms : List (List UInt8)) :
    Program.Act → Queue Side → List (List UInt8) → Prop
  | queue {l queue' ms'} (ho : Outcome queue ms l queue' ms') :
      QueueMoves queue ms (.queue l) queue' ms'
  | own {t} : QueueMoves queue ms (.own t) queue ms

/-- A segment of the producer's write. -/
theorem send (h : Flow numberCount as p ns ms) (hc : p.producer.call numberCount = some c)
    (hq : Step p.queue (.segment .producer writerHandle c seg) queue) :
    ∃ ns' ms', Flow numberCount (as ++ [.queue (.segment .producer writerHandle c seg)])
        (p.afterProducer queue seg.next) ns' ms' ∧
      Outcome p.queue ms (.segment .producer writerHandle c seg) queue ms' := by
  obtain ⟨number, rfl⟩ : ∃ number, c = .write (intBytes number) sizeofInt := by
    cases hp : p.producer <;> rw [hp] at hc <;> cases hc <;> exact ⟨_, rfl⟩
  have hw := h.writable hc
  obtain ⟨ms', hs', ho, hputs⟩ := hq.write_puts h.delivered.sound h.delivered.idle hw
  have hdelivered := h.delivered.of_outcome hs' ho trivial fun _ => hw.blocks
  rw [← labels_concat] at hdelivered
  have hreturned : returned (Program.labels (as ++ [.queue (.segment .producer writerHandle
      (.write (intBytes number) sizeofInt) seg)])) = returned (Program.labels as) := by
    rw [labels_concat, returned_append, returned, returned, List.append_nil]
    simp
  have hwritten := written_append (Program.labels as) [.segment .producer writerHandle
      (.write (intBytes number) sizeofInt) seg]
  rw [← labels_concat, h.sent] at hwritten
  cases hputs with
  | waits next notify =>
      have hafter : p.afterProducer queue seg.next = { p with queue } := by
        rw [next]
        rfl
      rw [hafter]
      refine ⟨ns, ms, ⟨h.passed, hdelivered, ?_, ?_, h.sends, hreturned ▸ h.received⟩, ho⟩
      · refine h.wired.producer_segment hq ho Iff.rfl fun k hk => ?_
        rw [next] at hk
        cases hk
        exact hc
      · rw [hwritten, written, next]
        exact List.append_nil _
  | puts next notify =>
      rw [written, next] at hwritten
      have hpending (k) : pendingAfter writerHandle (.write (intBytes number) sizeofInt) seg.next ≠
          some k := by
        rw [next]
        simp [pendingAfter]
      have hsends := h.sends
      cases hp : p.producer with
      | sendCount =>
          rw [hp] at hc hsends hwritten
          have hn : intBytes numberCount = intBytes number :=
            (Call.write.inj (Option.some.inj hc)).1
          obtain rfl := intBytes_injective hn
          obtain rfl : ns = [] := hsends
          have hafter : p.afterProducer queue seg.next =
              { p with queue, producer := .test 0 0 } := by
            rw [next]
            simp [Program.afterProducer, Producer.returns, hp]
          rw [hafter]
          refine ⟨[], _, ⟨h.passed, hdelivered, ?_, hwritten, ⟨rfl, rfl, Nat.zero_le _⟩,
            hreturned ▸ h.received⟩, ho⟩
          exact h.wired.producer_segment hq ho (by rw [hp]; rfl)
            fun k hk => absurd hk (hpending k)
      | send i sum n =>
          rw [hp] at hc hsends hwritten
          have hn : intBytes n = intBytes number := (Call.write.inj (Option.some.inj hc)).1
          obtain rfl := intBytes_injective hn
          obtain ⟨hi, hsum, hlt⟩ := hsends
          have hafter : p.afterProducer queue seg.next =
              { p with queue, producer := .test (i + 1) (sum + n) } := by
            rw [next]
            simp [Program.afterProducer, Producer.returns, hp]
          have hslt : i.slt numberCount = true := by
            rw [BitVec.slt_iff_toInt_lt, hi]
            omega
          rw [hafter]
          refine ⟨ns ++ [n], _, ⟨h.passed, hdelivered, ?_, ?_, ⟨?_, ?_, ?_⟩,
            hreturned ▸ h.received⟩, ho⟩
          · exact h.wired.producer_segment hq ho (by rw [hp]; rfl)
              fun k hk => absurd hk (hpending k)
          · rw [hwritten]
            simp [Producer.sent, written]
          · rw [toInt_succ hslt, hi]
            simp
          · rw [List.sum_append, hsum]
            simp
          · rw [List.length_append]
            exact hlt
      | _ =>
          rw [hp] at hc
          cases hc

/-- The message at the head of the ring is the count or the next number. -/
theorem head_message {m : List UInt8} (h : Flow numberCount as p ns (m :: ms))
    (hc : p.consumer.Calls c) :
    (∃ count, p.consumer = .readCount count) ∧ m = intBytes numberCount ∧
        returned (Program.labels as) = [] ∨
      ∃ i sum value rs n, p.consumer = .read numberCount i sum value ∧ m = intBytes n ∧
        returned (Program.labels as) = (numberCount :: rs).map intBytes ∧
        i.toInt = rs.length ∧ sum = rs.sum ∧ rs.length < numberCount.toInt.toNat := by
  rcases h.received with ⟨hcons, hnil⟩ | ⟨rs, hrs, hadds⟩
  · refine Or.inl ⟨hcons, ?_, hnil⟩
    have hfifo := h.delivered.fifo
    rw [hnil, List.nil_append, h.sent] at hfifo
    cases hp : p.producer with
    | sendCount =>
        rw [hp] at hfifo
        cases hfifo
    | _ =>
        rw [hp] at hfifo
        exact (List.cons.inj hfifo).1
  · obtain ⟨-, rest, -, hrest⟩ := h.received_prefix hrs
    cases rest with
    | nil => cases hrest
    | cons n rest =>
        cases hcons : p.consumer with
        | readCount count =>
            rw [hcons] at hadds
            exact hadds.elim
        | read count i sum value =>
            rw [hcons] at hadds
            obtain ⟨rfl, hi, hsum, hlt⟩ := hadds
            exact Or.inr ⟨i, sum, value, rs, n, rfl, (List.cons.inj hrest).1, hrs, hi, hsum, hlt⟩
        | _ =>
            rw [hcons] at hc
            exact hc.elim

/-- A segment of the consumer's read. -/
theorem receive (h : Flow numberCount as p ns ms) (hc : p.consumer.Calls c)
    (hq : Step p.queue (.segment .consumer readerHandle c seg) queue) :
    ∃ ms', Flow numberCount (as ++ [.queue (.segment .consumer readerHandle c seg)])
        (p.afterConsumer numberCount queue seg) ns ms' ∧
      Outcome p.queue ms (.segment .consumer readerHandle c seg) queue ms' := by
  obtain ⟨msgHead, rfl⟩ : ∃ msgHead, c = .read sizeofInt msgHead := by
    cases hp : p.consumer <;> rw [hp] at hc <;> first | exact hc.elim | exact hc
  have hr := h.readable
  obtain ⟨ms', hs', ho, hgets⟩ := hq.read_gets h.delivered.sound h.delivered.idle hr
  have hdelivered := h.delivered.of_outcome hs' ho (hr.buffersFit h.delivered.sound) trivial
  rw [← labels_concat] at hdelivered
  have hwritten : written (Program.labels (as ++ [.queue (.segment .consumer readerHandle
      (.read sizeofInt msgHead) seg)])) = p.producer.sent numberCount ns := by
    rw [labels_concat, written_append, written, written, List.append_nil, h.sent]
    simp
  have hreturned := returned_append (Program.labels as) [.segment .consumer readerHandle
      (.read sizeofInt msgHead) seg]
  rw [← labels_concat] at hreturned
  cases hgets with
  | waits next notify =>
      have hafter : p.afterConsumer numberCount queue seg = { p with queue } := by
        rw [Program.afterConsumer, next]
      rw [hafter]
      refine ⟨[], ⟨h.passed, hdelivered, ?_, hwritten, h.sends, ?_⟩, ho⟩
      · refine h.wired.consumer_segment hq ho Iff.rfl fun k hk => ?_
        rw [next] at hk
        cases hk
        exact hc
      · rw [hreturned, returned, next]
        exact (List.append_nil _).symm ▸ h.received
  | ends next notify closed =>
      obtain ⟨mq, k, hmq, -⟩ := hq.begins
      have hwriter := h.wired.hasWriter mq hmq (h.producer_holds hc)
      rw [closed mq hmq] at hwriter
      cases hwriter
  | @gets m _ _ next stored notify =>
      have hlen := h.length_message (List.mem_cons_self : m ∈ m :: ms')
      have hpending (k) : pendingAfter readerHandle (.read sizeofInt msgHead) seg.next ≠
          some k := by
        rw [next]
        simp [pendingAfter]
      have hnew : returned (Program.labels (as ++ [.queue (.segment .consumer readerHandle
          (.read sizeofInt msgHead) seg)])) = returned (Program.labels as) ++ [m] := by
        rw [hreturned]
        simp [returned, next, stored, hlen]
      rcases h.head_message hc with ⟨⟨count, hcons⟩, rfl, hnil⟩ |
        ⟨i, sum, value, rs, n, hcons, rfl, hrs, hi, hsum, hlt⟩
      · have hafter : p.afterConsumer numberCount queue seg =
            { p with queue, consumer := .test numberCount 0 0 } := by
          simp [Program.afterConsumer, Consumer.returns, next, stored, hcons, storeInt_intBytes]
        rw [hafter]
        refine ⟨ms', ⟨h.passed, hdelivered, ?_, hwritten, h.sends, Or.inr ⟨[], ?_, ?_⟩⟩, ho⟩
        · exact h.wired.consumer_segment hq ho (by rw [hcons]; rfl)
            fun k hk => absurd hk (hpending k)
        · rw [hnew, hnil]
          rfl
        · exact ⟨rfl, rfl, rfl, Nat.zero_le _⟩
      · have hafter : p.afterConsumer numberCount queue seg =
            { p with queue, consumer := .test numberCount (i + 1) (sum + n) } := by
          simp [Program.afterConsumer, Consumer.returns, next, stored, hcons, storeInt_intBytes]
        have hslt : i.slt numberCount = true := by
          rw [BitVec.slt_iff_toInt_lt, hi]
          omega
        rw [hafter]
        refine ⟨ms', ⟨h.passed, hdelivered, ?_, hwritten, h.sends, Or.inr ⟨rs ++ [n], ?_, ?_⟩⟩, ho⟩
        · exact h.wired.consumer_segment hq ho (by rw [hcons]; rfl)
            fun k hk => absurd hk (hpending k)
        · rw [hnew, hrs]
          simp
        · refine ⟨rfl, ?_, ?_, ?_⟩
          · rw [toInt_succ hslt, hi]
            simp
          · rw [List.sum_append, hsum]
            simp
          · rw [List.length_append]
            exact hlt

/-- Closing a handle moves no message. -/
theorem delivered_close (h : Flow numberCount as p ns ms) {handle : HandleId}
    (hq : Step p.queue (.close handle) queue) :
    Outcome p.queue ms (.close handle) queue ms ∧
      Delivered (Program.labels (as ++ [.queue (.close handle)])) queue ms ∧
      written (Program.labels (as ++ [.queue (.close handle)])) =
        written (Program.labels as) ∧
      returned (Program.labels (as ++ [.queue (.close handle)])) =
        returned (Program.labels as) := by
  obtain ⟨ms', hs', ho⟩ := h.delivered.sound.step (l := .close handle) trivial hq
  obtain ⟨rfl, -⟩ := ho.close_frame
  have hdelivered := h.delivered.of_outcome hs' ho trivial trivial
  rw [labels_concat]
  refine ⟨ho, hdelivered, ?_, ?_⟩
  · rw [written_append]
    exact List.append_nil _
  · rw [returned_append]
    exact List.append_nil _

/-- A step of a thread by itself. -/
theorem own (h : Flow numberCount as p ns ms) {t : Side} {producer : Producer}
    {consumer : Consumer} (hwired : Wired numberCount p.queue producer consumer)
    (hsent : producer.sent numberCount ns = p.producer.sent numberCount ns)
    (hsends : producer.Sends numberCount ns)
    (hreceived : consumer.Received numberCount (returned (Program.labels as))) :
    Flow numberCount (as ++ [.own t]) { p with producer, consumer } ns ms := by
  refine ⟨h.passed, ?_, hwired, ?_, hsends, ?_⟩
  · rw [labels_own]
    exact h.delivered
  · rw [labels_own, hsent]
    exact h.sent
  · rw [labels_own]
    exact hreceived

/-- The step rule. -/
theorem step (h : Flow numberCount as p ns ms) {a : Program.Act}
    (hm : Program.Move numberCount p a p') :
    ∃ ns' ms', Flow numberCount (as ++ [a]) p' ns' ms' ∧
      QueueMoves p.queue ms a p'.queue ms' := by
  have hadds {count i sum} (hcons : p.consumer = .test count i sum) :
      ∃ rs, returned (Program.labels as) = (numberCount :: rs).map intBytes ∧
        count = numberCount ∧ i.toInt = rs.length ∧ sum = rs.sum ∧
        rs.length ≤ numberCount.toInt.toNat := by
    rcases h.received with ⟨⟨count, hread⟩, -⟩ | ⟨rs, hrs, hadds⟩
    · rw [hcons] at hread
      cases hread
    · rw [hcons] at hadds
      exact ⟨rs, hrs, hadds⟩
  have hsends := h.sends
  cases hm with
  | @send c seg queue hr hc hq =>
      obtain ⟨ns', ms', hflow, ho⟩ := h.send hc hq
      have hqueue : (p.afterProducer queue seg.next).queue = queue := by
        unfold Program.afterProducer
        split
        · split <;> rfl
        · rfl
      exact ⟨ns', ms', hflow, by rw [hqueue]; exact .queue ho⟩
  | @receive c seg queue hr hc hq =>
      obtain ⟨ms', hflow, ho⟩ := h.receive hc hq
      have hqueue : (p.afterConsumer numberCount queue seg).queue = queue := by
        unfold Program.afterConsumer
        split
        · split <;> rfl
        · rfl
      exact ⟨ns, ms', hflow, by rw [hqueue]; exact .queue ho⟩
  | @sendAborts c queue hr hc hq =>
      have hfit : Call.LengthFits c := by
        cases hp : p.producer <;> rw [hp] at hc <;> cases hc <;> exact (by decide : 4 + 8 < 2 ^ 64)
      exact absurd hq (h.delivered.sound.not_abort hfit)
  | @receiveAborts c queue hr hc hq =>
      have hfit : Call.LengthFits c := by
        cases hp : p.consumer <;> rw [hp] at hc <;>
          first | exact hc.elim | (obtain ⟨_, rfl⟩ := hc; trivial)
      exact absurd hq (h.delivered.sound.not_abort hfit)
  | @nextNumber i sum number hr hp hlt hn =>
      rw [hp] at hsends
      obtain ⟨hi, hsum, hle⟩ := hsends
      rw [BitVec.slt_iff_toInt_lt, hi] at hlt
      refine ⟨ns, ms, h.own (h.wired.own ?_ Iff.rfl ?_ (Or.inl rfl)) ?_ ⟨hi, hsum, by omega⟩
        h.received, .own⟩
      · rw [hp]
        rfl
      · rw [hp]
        exact Or.inr rfl
      · rw [hp]
        rfl
  | @allSent i sum hr hp hge =>
      rw [hp] at hsends
      obtain ⟨hi, hsum, hle⟩ := hsends
      rw [Bool.eq_false_iff, ne_eq, BitVec.slt_iff_toInt_lt, hi] at hge
      refine ⟨ns, ms, h.own (h.wired.own ?_ Iff.rfl ?_ (Or.inl rfl)) ?_ ⟨hsum, by omega⟩
        h.received, .own⟩
      · rw [hp]
        rfl
      · rw [hp]
        exact Or.inr rfl
      · rw [hp]
        rfl
  | @producerCloses sum queue hr hp hq =>
      rw [hp] at hsends
      obtain ⟨ho, hdelivered, hwritten, hreturned⟩ := h.delivered_close hq
      refine ⟨ns, ms, ⟨h.passed, hdelivered, ?_, ?_, hsends, hreturned ▸ h.received⟩, .queue ho⟩
      · exact Wired.producer_closes (hp ▸ h.wired) ho
      · rw [hwritten, h.sent, hp]
        rfl
  | @nextRead count i sum value hr hc hlt =>
      obtain ⟨rs, hrs, rfl, hi, hsum, hle⟩ := hadds hc
      rw [BitVec.slt_iff_toInt_lt, hi] at hlt
      refine ⟨ns, ms, h.own (h.wired.own Iff.rfl ?_ (Or.inl rfl) ?_) rfl h.sends
        (Or.inr ⟨rs, hrs, rfl, hi, hsum, by omega⟩), .own⟩
      · rw [hc]
        rfl
      · rw [hc]
        exact Or.inr fun _ => id
  | @allRead count i sum hr hc hge =>
      obtain ⟨rs, hrs, rfl, hi, hsum, hle⟩ := hadds hc
      rw [Bool.eq_false_iff, ne_eq, BitVec.slt_iff_toInt_lt, hi] at hge
      refine ⟨ns, ms, h.own (h.wired.own Iff.rfl ?_ (Or.inl rfl) ?_) rfl h.sends
        (Or.inr ⟨rs, hrs, hsum, by omega⟩), .own⟩
      · rw [hc]
        rfl
      · rw [hc]
        exact Or.inr fun _ => id
  | @consumerCloses sum queue hr hc hq =>
      obtain ⟨ho, hdelivered, hwritten, hreturned⟩ := h.delivered_close hq
      refine ⟨ns, ms, ⟨h.passed, hdelivered, ?_, hwritten.trans h.sent, h.sends, ?_⟩, .queue ho⟩
      · exact Wired.consumer_closes (hc ▸ h.wired) ho
      · rw [hreturned]
        rcases h.received with ⟨⟨count, hread⟩, -⟩ | ⟨rs, hrs, hadds⟩
        · rw [hc] at hread
          cases hread
        · rw [hc] at hadds
          exact Or.inr ⟨rs, hrs, hadds⟩
  | @agrees sum hr hc hp =>
      rcases h.received with ⟨⟨count, hread⟩, -⟩ | ⟨rs, hrs, hadds⟩
      · rw [hc] at hread
        cases hread
      · rw [hc] at hadds
        refine ⟨ns, ms, h.own (h.wired.own Iff.rfl ?_ (Or.inl rfl) ?_) rfl h.sends
          (Or.inr ⟨rs, hrs, hadds⟩), .own⟩
        · rw [hc]
          rfl
        · rw [hc]
          exact Or.inr fun _ => id
  | @differs sum expectedSum hr hc hp hne =>
      -- Both sums are the sum of the numbers sent.
      rw [hp] at hsends
      rcases h.received with ⟨⟨count, hread⟩, -⟩ | ⟨rs, hrs, hadds⟩
      · rw [hc] at hread
        cases hread
      · rw [hc] at hadds
        obtain ⟨-, rest, rfl, -⟩ := h.received_prefix hrs
        have hlen := hsends.2
        rw [List.length_append, ← hadds.2] at hlen
        obtain rfl := List.length_eq_zero_iff.mp (by omega : rest.length = 0)
        rw [List.append_nil] at hsends
        exact absurd (hsends.1.trans hadds.1.symm) hne

end Flow

section Runs
variable [Build] {numberCount : CInt} {as : List Program.Act} {p p' p₀ : Program}
  {capacity : UInt64}

/-- The queue of a program that has started is empty and serves both threads. -/
theorem started_flow (h : Program.IsStarted capacity p) (hcap : 12 < capacity.toNat) :
    Flow numberCount [] p [] [] ∧ ∀ cv, p.queue.conds cv = Lib.CondVar.empty := by
  obtain ⟨queue, producer, consumer, failed⟩ := p
  obtain ⟨block, answer, mq, hcreate, hopen, rfl, ⟨count, rfl⟩, rfl⟩ := h
  have h₀ : IsCreated (created (T := Side) mq msgQueueReader) := ⟨_, _, _, _, _, hcreate, rfl⟩
  obtain ⟨buffer, stale, -, hsize, -, rfl⟩ := msgQueueCreate_ok hcreate
  have hs₀ := created_sound h₀
  obtain ⟨ms', hs, ho⟩ := hs₀.step (l := .open readerHandle writerHandle msgQueueWriter)
    trivial hopen
  have hi := (created_idle h₀).step hs₀ ho trivial
  obtain rfl := ho.open_frame
  clear ho
  have hopens (mq : MqBackend Empty) :
      msgQueueOpen mq msgQueueWriter = .ok (mqOpen mq msgQueueWriter) := rfl
  cases hopen with
  | openRefused ha hm hh hrun =>
      rw [hopens] at hrun
      cases hrun
  | «open» ha hm hh hnew hrun =>
      obtain rfl := Option.some.inj hm
      obtain rfl := Except.ok.inj ((hopens _).symm.trans hrun)
      refine ⟨⟨rfl, ⟨hs, hi, rfl, by simp [Program.labels]⟩, ?_, rfl, rfl,
        Or.inl ⟨⟨count, rfl⟩, rfl⟩⟩, fun _ => rfl⟩
      have hmem : readerHandle ∈ ({writerHandle, readerHandle} : Finset HandleId) := by decide
      refine ⟨rfl, rfl, iff_of_true hmem trivial,
        iff_of_true (Finset.mem_insert_self _ _) trivial, ?_, ?_, ?_, ?_, ?_⟩
      · rintro _ ⟨⟩
      · rintro _ ⟨⟩
      · rintro _ ⟨⟩
        rw [mqOpen_buffer, mqOpen_buffer, hsize]
        exact hcap
      · rintro _ ⟨⟩ -
        rw [mqOpen_noWriters]
        rfl
      · rintro _ ⟨⟩ -
        rw [mqOpen_noReaders, mqOpen_noReaders]
        rfl

/-- `main` finishes after the join with the producer only. -/
theorem Program.Move.joined {a : Program.Act} (hm : Program.Move numberCount p a p') {sum : CInt}
    (hfinished : p'.consumer = .finished sum) : p'.producer = .exited sum := by
  have hrunning {consumer : Consumer} (hr : p.Running) (hc : p.consumer = consumer) :
      consumer ≠ .finished sum := by
    rintro rfl
    rw [Running, hc] at hr
    exact hr.2.2 trivial
  cases hm with
  | send hr =>
      refine absurd hfinished (hrunning hr ?_)
      unfold afterProducer
      split
      · split <;> rfl
      · rfl
  | receive hr =>
      unfold afterConsumer at hfinished
      split at hfinished
      · split at hfinished
        · next hreturns =>
            cases hc : p.consumer with
            | finished s => exact (hr.2.2 (by rw [hc]; trivial)).elim
            | readCount count =>
                rw [hc] at hreturns
                simp only [Consumer.returns] at hreturns
                split at hreturns <;> cases hreturns
                cases hfinished
            | read count i s value =>
                rw [hc] at hreturns
                simp only [Consumer.returns] at hreturns
                split at hreturns
                · cases hreturns
                  cases hfinished
                · split at hreturns <;> cases hreturns <;> cases hfinished
            | _ =>
                rw [hc] at hreturns
                cases hreturns
                cases hfinished
        · exact absurd hfinished (hrunning hr rfl)
      · exact absurd hfinished (hrunning hr rfl)
  | agrees hr hc hp =>
      cases hfinished
      exact hp
  | nextRead => cases hfinished
  | allRead => cases hfinished
  | consumerCloses => cases hfinished
  | sendAborts hr => exact absurd hfinished (hrunning hr rfl)
  | receiveAborts hr => exact absurd hfinished (hrunning hr rfl)
  | nextNumber hr => exact absurd hfinished (hrunning hr rfl)
  | allSent hr => exact absurd hfinished (hrunning hr rfl)
  | producerCloses hr => exact absurd hfinished (hrunning hr rfl)
  | differs hr => exact absurd hfinished (hrunning hr rfl)

/-- When every message fits the queue, no assertion of the program fails, no read
fails, and what the consumer has received is a prefix of what the producer has sent.
When `main` finishes, both have added the same numbers, as many as announced. -/
theorem prodcon_sums_agree (h₀ : Program.IsStarted capacity p₀) (hcap : 12 < capacity.toNat)
    (run : Run (Program.Move numberCount) p₀ as p) :
    p.failed = false ∧ p.queue.aborted = false ∧ p.consumer ≠ .readFailed ∧
    returned (Program.labels as) <+: written (Program.labels as) ∧
    ∀ sum, p.consumer = .finished sum → p.producer = .exited sum ∧
      ∃ ns : List CInt, ns.length = numberCount.toInt.toNat ∧ sum = ns.sum ∧
        written (Program.labels as) = (numberCount :: ns).map intBytes ∧
        returned (Program.labels as) = (numberCount :: ns).map intBytes := by
  obtain ⟨⟨ns, ms, h⟩, hjoined⟩ : (∃ ns ms, Flow numberCount as p ns ms) ∧
      ∀ sum, p.consumer = .finished sum → p.producer = .exited sum := by
    refine Run.invariant (I := fun as p => (∃ ns ms, Flow numberCount as p ns ms) ∧
      ∀ sum, p.consumer = .finished sum → p.producer = .exited sum) ⟨⟨[], [], ?_⟩, ?_⟩ ?_ run
    · exact (started_flow h₀ hcap).1
    · obtain ⟨_, _, _, -, -, -, ⟨count, hcons⟩, -⟩ := h₀
      intro sum hfinished
      rw [hcons] at hfinished
      cases hfinished
    · rintro as p a p' ⟨⟨ns, ms, h⟩, -⟩ hm
      obtain ⟨ns', ms', h', -⟩ := h.step hm
      exact ⟨⟨ns', ms', h'⟩, fun sum => hm.joined⟩
  refine ⟨h.passed, h.delivered.sound.running, ?_, ⟨ms, h.delivered.fifo⟩, fun sum hfinished => ?_⟩
  · intro hcons
    rcases h.received with ⟨⟨count, hread⟩, -⟩ | ⟨rs, -, hadds⟩
    · rw [hcons] at hread
      cases hread
    · rw [hcons] at hadds
      exact hadds
  · have hp := hjoined sum hfinished
    have hsends := h.sends
    have hsent := h.sent
    rw [hp] at hsends hsent
    rcases h.received with ⟨⟨count, hread⟩, -⟩ | ⟨rs, hrs, hadds⟩
    · rw [hfinished] at hread
      cases hread
    · rw [hfinished] at hadds
      obtain ⟨-, rest, rfl, -⟩ := h.received_prefix hrs
      have hlen := hsends.2
      rw [List.length_append, ← hadds.2] at hlen
      obtain rfl := List.length_eq_zero_iff.mp (by omega : rest.length = 0)
      rw [List.append_nil] at hsent
      exact ⟨hp, rs, hadds.2, hadds.1, hsent, hrs⟩

end Runs

/-- A queue of thirteen bytes carries the count 1 and the number 5. -/
theorem prodcon_sums_agree_one :
    letI : Build := ⟨false⟩
    ∃ (p : Program) (as : List Program.Act), p.consumer = .finished 5 ∧
      p.producer = .exited 5 ∧
      written (Program.labels as) = [intBytes 1, intBytes 5] ∧
      returned (Program.labels as) <+: written (Program.labels as) := by
  let _ : Build := ⟨false⟩
  let mq (buffer : List UInt8) (pos : UInt64 × UInt64) (event : CInt) : MqBackend Empty :=
    ⟨⟨buffer, 13, pos.1, pos.2, false⟩, 2, 1, 1, false, false, event, []⟩
  let freed : List UInt8 := List.replicate 13 0xDD
  let q₀ : Queue Side :=
    ⟨some (mq freed (0, 0) 0), {1, 0}, Function.update (fun _ => 1) 1 2, fun _ => none,
      fun _ => Lib.CondVar.empty, false⟩
  let p₀ : Program := ⟨q₀, .sendCount, .readCount 0, false⟩
  have h₀ : Program.IsStarted 13 p₀ :=
    ⟨some 0, some fun _ => 0, ⟨⟨freed, 13, 0, 0, false⟩, 1, 1, 0, false, false, 0, []⟩, by decide,
      .open rfl rfl (by decide) (by decide) (by decide), rfl, ⟨0, rfl⟩, rfl⟩
  -- The count.
  let put₁ : Segment Empty := ⟨mq [4, 0, 0, 0, 0, 0, 0, 0, 1, 0, 0, 0, 0xDD] (0, 12) 1,
    [.signal .spaceEmpty], [], [true, true], .ret 0 none⟩
  let q₁ := q₀.finish .producer 1 (.write (intBytes 1) 4) put₁
    (Function.update q₀.conds .spaceEmpty Lib.CondVar.empty)
  have write₁ : Step q₀ _ q₁ :=
    Step.first rfl rfl rfl (by decide) rfl (by decide) (.signal (.none rfl) (.nil _))
  let got₁ : Segment Empty := ⟨mq freed (12, 12) 2,
    [.signal .spaceFull], [1, 0, 0, 0], [true, true, true], .ret 4 none⟩
  let q₂ := q₁.finish .consumer 0 (.read 4 0) got₁
    (Function.update q₁.conds .spaceFull Lib.CondVar.empty)
  have read₁ : Step q₁ _ q₂ :=
    Step.first rfl rfl rfl (by decide) trivial (by decide) (.signal (.none rfl) (.nil _))
  -- The number.
  let put₂ : Segment Empty := ⟨mq [0, 0, 0, 0, 0, 0, 0, 5, 0, 0, 0, 0xDD, 4] (12, 11) 3,
    [.signal .spaceEmpty], [], [true, true], .ret 0 none⟩
  let q₃ := q₂.finish .producer 1 (.write (intBytes 5) 4) put₂
    (Function.update q₂.conds .spaceEmpty Lib.CondVar.empty)
  have write₂ : Step q₂ _ q₃ :=
    Step.first rfl rfl rfl (by decide) rfl (by decide) (.signal (.none rfl) (.nil _))
  let got₂ : Segment Empty := ⟨mq freed (11, 11) 2,
    [.signal .spaceFull], [5, 0, 0, 0], [true, true, true], .ret 4 none⟩
  let q₄ := q₃.finish .consumer 0 (.read 4 0) got₂
    (Function.update q₃.conds .spaceFull Lib.CondVar.empty)
  have read₂ : Step q₃ _ q₄ :=
    Step.first rfl rfl rfl (by decide) trivial (by decide) (.signal (.none rfl) (.nil _))
  -- The closes.
  let q₅ : Queue Side := { q₄ with
    mq := some ⟨⟨freed, 13, 11, 11, false⟩, 1, 1, 0, false, true, 11, []⟩
    handles := q₄.handles.erase 1
    conds := Function.update q₄.conds .spaceEmpty (q₄.conds .spaceEmpty).broadcast }
  have close₁ : Step q₄ (.close 1) q₅ :=
    .close rfl rfl (by decide) (by rintro (_ | _) _ ⟨⟩) (by decide) (.broadcast (.nil _))
  let q₆ : Queue Side := { q₅ with mq := none, handles := q₅.handles.erase 0 }
  have close₂ : Step q₅ (.close 0) q₆ :=
    .close rfl rfl (by decide) (by rintro (_ | _) _ ⟨⟩) (by decide) (.nil _)
  have sends {p : Program} {c : Call} {queue : Queue Side} {seg : Segment Empty}
      {producer : Producer} (hr : p.Running) (hc : p.producer.call 1 = some c)
      (hq : Step p.queue (.segment .producer 1 c seg) queue) (hn : seg.next = .ret 0 none)
      (hp : p.producer.returns 0 none = some producer) :
      Program.Move 1 p (.queue (.segment .producer 1 c seg)) { p with queue, producer } := by
    have hafter : p.afterProducer queue seg.next = { p with queue, producer } := by
      simp only [Program.afterProducer, hn, hp]
    exact hafter ▸ .send hr hc hq
  have reads {p : Program} {c : Call} {queue : Queue Side} {seg : Segment Empty}
      {consumer : Consumer} (hr : p.Running) (hc : p.consumer.Calls c)
      (hq : Step p.queue (.segment .consumer 0 c seg) queue) (hn : seg.next = .ret 4 none)
      (hp : p.consumer.returns 1 4 seg.stored = some consumer) :
      Program.Move 1 p (.queue (.segment .consumer 0 c seg)) { p with queue, consumer } := by
    have hafter : p.afterConsumer 1 queue seg = { p with queue, consumer } := by
      simp only [Program.afterConsumer, hn, hp]
    exact hafter ▸ .receive hr hc hq
  let p (queue : Queue Side) (producer : Producer) (consumer : Consumer) : Program :=
    ⟨queue, producer, consumer, false⟩
  have alive {queue : Queue Side} {producer : Producer} {consumer : Consumer}
      (ha : queue.aborted = false) (hc : ¬ consumer.Returned) :
      (p queue producer consumer).Running := ⟨rfl, ha, hc⟩
  have start : Run (Program.Move 1) p₀ [] p₀ := .nil
  have run := ((((start.snoc
    (t := p q₁ (.test 0 0) (.readCount 0)) (sends (alive rfl id) rfl write₁ rfl rfl)).snoc
    (t := p q₂ (.test 0 0) (.test 1 0 0)) (reads (alive rfl id) ⟨0, rfl⟩ read₁ rfl rfl)).snoc
    (t := p q₂ (.send 0 0 5) (.test 1 0 0)) (.nextNumber (alive rfl id) rfl rfl (by decide))).snoc
    (t := p q₃ (.test 1 5) (.test 1 0 0)) (sends (alive rfl id) rfl write₂ rfl rfl))
  have run := ((run.snoc
    (t := p q₃ (.test 1 5) (.read 1 0 0 0)) (.nextRead (alive rfl id) rfl rfl)).snoc
    (t := p q₄ (.test 1 5) (.test 1 1 5)) (reads (alive rfl id) ⟨0, rfl⟩ read₂ rfl rfl))
  have run := ((((run.snoc
    (t := p q₄ (.close 5) (.test 1 1 5)) (.allSent (alive rfl id) rfl rfl)).snoc
    (t := p q₅ (.exited 5) (.test 1 1 5)) (.producerCloses (alive rfl id) rfl close₁)).snoc
    (t := p q₅ (.exited 5) (.close 5)) (.allRead (alive rfl id) rfl rfl)).snoc
    (t := p q₆ (.exited 5) (.join 5)) (.consumerCloses (alive rfl id) rfl close₂)).snoc
    (t := p q₆ (.exited 5) (.finished 5)) (.agrees (alive rfl id) rfl rfl)
  obtain ⟨-, -, -, hprefix, hfinished⟩ := prodcon_sums_agree h₀ (by decide) run
  exact ⟨_, _, rfl, (hfinished 5 rfl).1, by rfl, hprefix⟩

end Prodcon
end UoftOs.MsgQueue
