import UoftOs.MsgQueue.LockDiscipline

/-!
# The argument checks of poll

The first loop of `msg_queue_poll` scans the array, clears `revents` and ends at the first
entry with a malformed request. It never looks at the bits outside of `ALL_EVENT`, so a
request with such a bit is refused only when another check fails.

## Implementation notes

`i` and `num_null` are `unsigned int`, `nfds` is a `size_t`. An array of 2^32 entries or more
is scanned over and over unless one of its first 2^32 entries is refused, so the loop takes
fuel. The machine of `Program` starts a poll call with the result of these checks; they agree
on every array of fewer than 2^32 entries.
-/

namespace UoftOs.MsgQueue

open Lib.Threads

variable {Q : Type}

/-- `ALL_EVENT`, which no function uses. -/
def allEvent : CInt := mqpollNowriters ||| mqpollNoreaders ||| mqpollReadable ||| mqpollWritable

def PollFd.cleared (fd : PollFd Q) : PollFd Q := { fd with revents := 0 }

/-- The first loop of `msg_queue_poll` from index `i` on: the array, and `num_null` at the end
of the loop, or none when an entry is refused. -/
def pollScan : Nat → List (PollFd Q) → UInt32 → UInt32 →
    Option (List (PollFd Q) × Option UInt32)
  | 0, _, _, _ => none
  | fuel + 1, fds, i, numNull =>
      match fds[i.toNat]? with
      | none => some (fds, some numNull)
      | some fd =>
          let fds := fds.set i.toNat fd.cleared
          match fd.queue with
          | none => pollScan fuel fds (i + 1) (numNull + 1)
          | some (_, flags) =>
              if fd.events == 0 then some (fds, none)
              else if hasAny fd.events mqpollReadable && !hasAny flags msgQueueReader then
                some (fds, none)
              else if hasAny fd.events mqpollWritable && !hasAny flags msgQueueWriter then
                some (fds, none)
              else pollScan fuel fds (i + 1) numNull

/-- `msg_queue_poll` up to its `malloc`: the array, and the error it returns with. -/
def pollCheck (fuel : Nat) (fds : List (PollFd Q)) : Option (List (PollFd Q) × Option Errno) :=
  match pollScan fuel fds 0 0 with
  | none => none
  | some (fds', none) => some (fds', some .EINVAL)
  | some (fds', some numNull) =>
      if numNull.toNat == fds.length || fds.length == 0 then some (fds', some .EINVAL)
      else some (fds', none)

/-- The checks end with `EINVAL`. -/
def Refuses (fds : List (PollFd Q)) : Prop :=
  ∃ fuel fds', pollCheck fuel fds = some (fds', some .EINVAL)

/-- The array with every `revents` cleared. -/
def clearRevents (fds : List (PollFd Q)) : List (PollFd Q) := fds.map PollFd.cleared

/-! ## One entry -/

variable {fds : List (PollFd Q)} {fd : PollFd Q} {i k : UInt32} {fuel : Nat}

theorem pollScan_end (h : fds[i.toNat]? = none) : pollScan (fuel + 1) fds i k = some (fds, some k) := by
  rw [pollScan, h]

theorem pollScan_refused (h : fds[i.toNat]? = some fd) (hvalid : pollFdValid fd = false) :
    pollScan (fuel + 1) fds i k = some (fds.set i.toNat fd.cleared, none) := by
  rw [pollScan, h]
  dsimp only
  rw [pollFdValid] at hvalid
  cases hq : fd.queue with
  | none =>
      rw [hq] at hvalid
      cases hvalid
  | some handle =>
      obtain ⟨q, flags⟩ := handle
      rw [hq] at hvalid
      dsimp only at hvalid ⊢
      split
      · rfl
      · next hzero =>
          split
          · rfl
          · next hreadable =>
              rw [Bool.not_eq_true] at hzero hreadable
              rw [hzero, hreadable, Bool.false_or, Bool.false_or, Bool.not_eq_false'] at hvalid
              rw [hvalid, if_pos rfl]

/-- The number of null queues in the entry. -/
def nullCount (fd : PollFd Q) : Nat := if fd.queue.isNone then 1 else 0

theorem pollScan_passed (h : fds[i.toNat]? = some fd) (hvalid : pollFdValid fd = true) :
    pollScan (fuel + 1) fds i k =
      pollScan fuel (fds.set i.toNat fd.cleared) (i + 1) (k + .ofNat (nullCount fd)) := by
  rw [pollScan, h]
  dsimp only
  rw [pollFdValid] at hvalid
  rw [nullCount]
  cases hq : fd.queue with
  | none => rfl
  | some handle =>
      obtain ⟨q, flags⟩ := handle
      rw [hq] at hvalid
      dsimp only at hvalid ⊢
      rw [Bool.not_eq_true', Bool.or_eq_false_iff, Bool.or_eq_false_iff] at hvalid
      obtain ⟨⟨hzero, hreadable⟩, hwritable⟩ := hvalid
      rw [hzero, hreadable, hwritable, if_neg Bool.false_ne_true, if_neg Bool.false_ne_true,
        if_neg Bool.false_ne_true]
      exact congrArg _ (UInt32.add_zero k).symm

/-! ## The whole scan -/

/-- More fuel does not change the result. -/
theorem pollScan_mono {fuel' : Nat} (hle : fuel ≤ fuel') {r : List (PollFd Q) × Option UInt32}
    (h : pollScan fuel fds i k = some r) : pollScan fuel' fds i k = some r := by
  induction fuel generalizing fuel' fds i k with
  | zero => cases h
  | succ fuel ih =>
      obtain ⟨fuel', rfl⟩ := Nat.exists_eq_add_of_le' (Nat.le_trans (Nat.le_add_left 1 fuel) hle)
      cases hfd : fds[i.toNat]? with
      | none =>
          rw [pollScan_end hfd] at h ⊢
          exact h
      | some fd =>
          cases hvalid : pollFdValid fd with
          | false =>
              rw [pollScan_refused hfd hvalid] at h ⊢
              exact h
          | true =>
              rw [pollScan_passed hfd hvalid] at h ⊢
              exact ih (Nat.le_of_succ_le_succ hle) h

/-- The scan passes a stretch of the array, or ends in it. -/
theorem pollScan_append (fuel : Nat) (k : UInt32) (done rest tail : List (PollFd Q))
    (hlen : done.length + rest.length ≤ 4294967296) :
    (rest.all pollFdValid = true ∧
      pollScan (fuel + rest.length) (done ++ rest ++ tail) (.ofNat done.length) k =
        pollScan fuel (done ++ clearRevents rest ++ tail) (.ofNat (done.length + rest.length))
          (k + .ofNat (rest.countP fun fd => fd.queue.isNone))) ∨
    (rest.all pollFdValid = false ∧ ∃ fds',
      pollScan (fuel + rest.length) (done ++ rest ++ tail) (.ofNat done.length) k =
        some (fds', none)) := by
  induction rest generalizing done k with
  | nil => exact .inl ⟨rfl, congrArg _ (UInt32.add_zero k).symm⟩
  | cons fd rest ih =>
      rw [List.length_cons] at hlen
      have hindex : (UInt32.ofNat done.length).toNat = done.length :=
        UInt32.toNat_ofNat_of_lt' (show done.length < 4294967296 by omega)
      have hfd : (done ++ fd :: rest ++ tail)[(UInt32.ofNat done.length).toNat]? = some fd := by
        rw [hindex, List.append_assoc, List.getElem?_append_right le_rfl, Nat.sub_self]
        rfl
      have hset : (done ++ fd :: rest ++ tail).set (UInt32.ofNat done.length).toNat fd.cleared =
          (done ++ [fd.cleared]) ++ rest ++ tail := by
        rw [hindex, List.append_assoc, List.set_append_right _ _ le_rfl, Nat.sub_self,
          List.append_assoc, List.append_assoc]
        rfl
      have hnext : UInt32.ofNat done.length + 1 = .ofNat (done ++ [fd.cleared]).length := by
        rw [List.length_append, UInt32.ofNat_add]
        rfl
      rw [List.all_cons, List.length_cons, ← Nat.add_assoc]
      cases hvalid : pollFdValid fd with
      | false =>
          exact .inr ⟨rfl, _, pollScan_refused hfd hvalid⟩
      | true =>
          rw [pollScan_passed hfd hvalid, hset, hnext, Bool.true_and]
          rcases ih (k := k + .ofNat (nullCount fd)) (done ++ [fd.cleared])
            (by rw [List.length_append, List.length_singleton]; omega) with
            ⟨hall, heq⟩ | hrefused
          · refine .inl ⟨hall, ?_⟩
            rw [heq, UInt32.add_assoc, ← UInt32.ofNat_add, List.length_append,
              List.length_singleton, clearRevents, clearRevents, List.map_cons,
              ← List.append_cons, List.countP_cons, nullCount, Nat.add_comm (ite ..),
              Nat.add_assoc done.length, Nat.add_comm 1]
          · exact .inr hrefused

/-- The scan of an array whose first 2^32 entries pass the checks starts over and over. -/
theorem pollScan_loops (h : ∀ j < 4294967296, ∃ fd, fds[j]? = some fd ∧ pollFdValid fd = true) :
    pollScan fuel fds i k = none := by
  induction fuel generalizing fds i k with
  | zero => rfl
  | succ fuel ih =>
      obtain ⟨fd, hfd, hvalid⟩ := h i.toNat i.toNat_lt
      rw [pollScan_passed hfd hvalid]
      refine ih fun j hj => ?_
      obtain ⟨fd', hfd', hvalid'⟩ := h j hj
      rcases eq_or_ne i.toNat j with rfl | hne
      · exact ⟨fd.cleared, List.getElem?_set_self (List.getElem?_eq_some_iff.mp hfd).1, hvalid⟩
      · exact ⟨fd', (List.getElem?_set_ne hne).trans hfd', hvalid'⟩

/-- The scan of a shorter array ends. -/
theorem pollScan_eq (hlen : fds.length < 4294967296) :
    (fds.all pollFdValid = true ∧ pollScan (fds.length + 1) fds 0 0 =
      some (clearRevents fds, some (.ofNat (fds.countP fun fd => fd.queue.isNone)))) ∨
    (fds.all pollFdValid = false ∧ ∃ fds', pollScan (fds.length + 1) fds 0 0 =
      some (fds', none)) := by
  have hscan := pollScan_append 1 0 [] fds [] (by
    rw [List.length_nil, Nat.zero_add]
    exact hlen.le)
  rw [List.nil_append, List.append_nil, Nat.add_comm 1] at hscan
  refine hscan.imp_left fun ⟨hall, heq⟩ => ⟨hall, heq.trans ?_⟩
  have hindex : (UInt32.ofNat fds.length).toNat = fds.length := UInt32.toNat_ofNat_of_lt' hlen
  rw [List.nil_append, List.append_nil, List.length_nil, Nat.zero_add, UInt32.zero_add]
  apply pollScan_end
  rw [hindex, clearRevents, List.getElem?_eq_none_iff, List.length_map]

/-- The scan ends at the latest with the first refused entry that its index reaches. -/
theorem pollScan_take {n : Nat} (hn : n ≤ 4294967296) (hlen : n ≤ fds.length)
    (hrefused : (fds.take n).all pollFdValid = false) :
    ∃ fds', pollScan n fds 0 0 = some (fds', none) := by
  have htake : (fds.take n).length = n := List.length_take_of_le hlen
  have hscan := pollScan_append 0 0 [] (fds.take n) (fds.drop n) (by
    rw [htake, List.length_nil, Nat.zero_add]
    exact hn)
  rw [List.nil_append, List.take_append_drop, htake, Nat.zero_add] at hscan
  rcases hscan with ⟨hall, -⟩ | ⟨-, hrun⟩
  · rw [hrefused] at hall
    cases hall
  · exact hrun

theorem pollCheck_mono {fuel' : Nat} (hle : fuel ≤ fuel')
    {r : List (PollFd Q) × Option Errno} (h : pollCheck fuel fds = some r) :
    pollCheck fuel' fds = some r := by
  cases hscan : pollScan fuel fds 0 0 with
  | none =>
      rw [pollCheck, hscan] at h
      cases h
  | some result =>
      rw [pollCheck, hscan] at h
      rw [pollCheck, pollScan_mono hle hscan]
      exact h

/-- Any fuel with which the checks end tells whether they refuse. -/
theorem refuses_iff_of_eq {fds' : List (PollFd Q)} {e : Option Errno}
    (h : pollCheck fuel fds = some (fds', e)) : Refuses fds ↔ e = some .EINVAL := by
  constructor
  · rintro ⟨fuel', fds'', hrefuses⟩
    have heq := (pollCheck_mono (Nat.le_max_left fuel fuel') h).symm.trans
      (pollCheck_mono (Nat.le_max_right fuel fuel') hrefuses)
    cases heq
    rfl
  · rintro rfl
    exact ⟨fuel, fds', h⟩

/-- The arrays of fewer than 2^32 entries that pass are those that `pollValid` accepts. -/
theorem pollCheck_eq (hlen : fds.length < 4294967296) :
    (pollValid fds = true ∧
      pollCheck (fds.length + 1) fds = some (clearRevents fds, none)) ∨
    (pollValid fds = false ∧ ∃ fds',
      pollCheck (fds.length + 1) fds = some (fds', some .EINVAL)) := by
  rw [pollCheck, pollValid]
  rcases pollScan_eq hlen with ⟨hall, heq⟩ | ⟨hall, fds', heq⟩
  · have hcount : (UInt32.ofNat (fds.countP fun fd => fd.queue.isNone)).toNat =
        fds.countP fun fd => fd.queue.isNone :=
      UInt32.toNat_ofNat_of_lt' (List.countP_le_length.trans_lt hlen)
    rw [heq, hall, Bool.true_and]
    dsimp only
    rw [hcount]
    by_cases hnull : ∀ fd ∈ fds, fd.queue.isNone = true
    · rw [List.countP_eq_length.mpr hnull, beq_self_eq_true, Bool.true_or, if_pos rfl,
        List.any_eq_false]
      refine .inr ⟨fun fd hfd => ?_, _, rfl⟩
      rw [Option.not_isSome_iff_eq_none, ← Option.isNone_iff_eq_none]
      exact hnull fd hfd
    · have hne : fds.countP (fun fd => fd.queue.isNone) ≠ fds.length :=
        fun h => hnull (List.countP_eq_length.mp h)
      have hpos : fds.length ≠ 0 := fun h =>
        hne (Nat.le_antisymm List.countP_le_length (h ▸ Nat.zero_le _))
      rw [beq_false_of_ne hne, beq_false_of_ne hpos, List.any_eq_true]
      push Not at hnull
      obtain ⟨fd, hfd, hsome⟩ := hnull
      exact .inl ⟨⟨fd, hfd, Option.isSome_iff_ne_none.mpr fun h => hsome (by rw [h]; rfl)⟩, rfl⟩
  · rw [heq, hall]
    exact .inr ⟨rfl, fds', rfl⟩

theorem entry_poll_start (fds : List (PollFd Q)) :
    (Entry.poll fds).start =
      if pollValid fds then .pollAlloc (clearRevents fds) else .done (-1) := by
  have hvalid : pollValid (clearRevents fds) = pollValid fds := by
    rw [pollValid, pollValid, clearRevents, List.all_map, List.any_map]
    rfl
  rw [← hvalid]
  rfl

/-- A poll call of the machine begins with these checks. -/
theorem entry_poll_eq_pollCheck (hlen : fds.length < 4294967296) :
    ∃ fds' e, pollCheck (fds.length + 1) fds = some (fds', e) ∧
      (Entry.poll fds).start = if e = none then .pollAlloc fds' else .done (-1) := by
  rw [entry_poll_start]
  rcases pollCheck_eq hlen with ⟨hvalid, heq⟩ | ⟨hvalid, fds', heq⟩
  · exact ⟨_, _, heq, by rw [hvalid, if_pos rfl, if_pos rfl]⟩
  · refine ⟨fds', _, heq, ?_⟩
    rw [hvalid, if_neg Bool.false_ne_true, if_neg (Option.some_ne_none _)]

/-! ## Malformed requests -/

/-- An entry asks for nothing, for a bit that is no event, or for one its handle cannot have. -/
def MalformedEntry (fd : PollFd Q) : Prop :=
  ∃ q flags, fd.queue = some (q, flags) ∧
    (fd.events = 0 ∨ hasAny fd.events (~~~allEvent) = true ∨
      (hasAny fd.events mqpollReadable = true ∧ hasAny flags msgQueueReader = false) ∨
      (hasAny fd.events mqpollWritable = true ∧ hasAny flags msgQueueWriter = false))

/-- The array is empty, all its queues are null, or some entry is malformed. -/
def Malformed (fds : List (PollFd Q)) : Prop :=
  (∀ fd ∈ fds, fd.queue = none) ∨ ∃ fd ∈ fds, MalformedEntry fd

/-- An entry is malformed for a reason other than a bit that is no event. -/
def RefusedEntry (fd : PollFd Q) : Prop :=
  ∃ q flags, fd.queue = some (q, flags) ∧
    (fd.events = 0 ∨
      (hasAny fd.events mqpollReadable = true ∧ hasAny flags msgQueueReader = false) ∨
      (hasAny fd.events mqpollWritable = true ∧ hasAny flags msgQueueWriter = false))

/-- The scan can see what is wrong: an array short enough to count has null queues only, or
one of the entries that the 32-bit index reaches is refused. -/
def PlainlyMalformed (fds : List (PollFd Q)) : Prop :=
  (fds.length < 4294967296 ∧ ∀ fd ∈ fds, fd.queue = none) ∨
    ∃ fd ∈ fds.take 4294967296, RefusedEntry fd

theorem pollFdValid_eq_false_iff (fd : PollFd Q) : pollFdValid fd = false ↔ RefusedEntry fd := by
  rw [pollFdValid, RefusedEntry]
  cases hq : fd.queue with
  | none => simp
  | some handle =>
      obtain ⟨q, flags⟩ := handle
      simp only [Bool.not_eq_false', Bool.or_eq_true, Bool.and_eq_true, beq_iff_eq,
        Bool.not_eq_true', or_assoc]
      constructor
      · exact fun h => ⟨q, flags, rfl, h⟩
      · rintro ⟨_, _, ⟨⟩, h⟩
        exact h

theorem pollValid_eq_false_iff (fds : List (PollFd Q)) :
    pollValid fds = false ↔ (∀ fd ∈ fds, fd.queue = none) ∨ ∃ fd ∈ fds, RefusedEntry fd := by
  rw [pollValid, Bool.and_eq_false_iff, List.all_eq_false, List.any_eq_false, or_comm]
  refine or_congr (forall₂_congr fun fd _ => ?_) (exists_congr fun fd => and_congr_right fun _ => ?_)
  · rw [Option.not_isSome_iff_eq_none]
  · rw [Bool.not_eq_true, pollFdValid_eq_false_iff]

theorem RefusedEntry.malformed (h : RefusedEntry fd) : MalformedEntry fd := by
  obtain ⟨q, flags, hq, hzero | hrest⟩ := h
  · exact ⟨q, flags, hq, .inl hzero⟩
  · exact ⟨q, flags, hq, .inr (.inr hrest)⟩

theorem PlainlyMalformed.malformed (h : PlainlyMalformed fds) : Malformed fds := by
  rcases h with ⟨-, hnull⟩ | ⟨fd, hfd, hrefused⟩
  · exact .inl hnull
  · exact .inr ⟨fd, List.mem_of_mem_take hfd, hrefused.malformed⟩

theorem PlainlyMalformed.pollValid (h : PlainlyMalformed fds) : pollValid fds = false := by
  rw [pollValid_eq_false_iff]
  rcases h with ⟨-, hnull⟩ | ⟨fd, hfd, hrefused⟩
  · exact .inl hnull
  · exact .inr ⟨fd, List.mem_of_mem_take hfd, hrefused⟩

/-- The code refuses the arrays in which the scan can see what is wrong. -/
theorem refuses_iff_plainlyMalformed (fds : List (PollFd Q)) :
    Refuses fds ↔ PlainlyMalformed fds := by
  rcases Nat.lt_or_ge fds.length 4294967296 with hlen | hlen
  · have hplain : PlainlyMalformed fds ↔ pollValid fds = false := by
      rw [pollValid_eq_false_iff, PlainlyMalformed, List.take_of_length_le hlen.le,
        and_iff_right hlen]
    rw [hplain]
    rcases pollCheck_eq hlen with ⟨hvalid, heq⟩ | ⟨hvalid, fds', heq⟩
    · rw [refuses_iff_of_eq heq, hvalid]
      exact iff_of_false (fun h => by cases h) (fun h => by cases h)
    · rw [refuses_iff_of_eq heq]
      exact iff_of_true rfl hvalid
  · have hplain : PlainlyMalformed fds ↔ (fds.take 4294967296).all pollFdValid = false := by
      rw [List.all_eq_false, PlainlyMalformed, or_iff_right fun h => Nat.not_lt.mpr hlen h.1]
      refine exists_congr fun fd => and_congr_right fun _ => ?_
      rw [Bool.not_eq_true, pollFdValid_eq_false_iff]
    rw [hplain]
    cases hall : (fds.take 4294967296).all pollFdValid with
    | false =>
        refine iff_of_true ?_ rfl
        obtain ⟨fds', hscan⟩ := pollScan_take le_rfl hlen hall
        exact ⟨_, fds', by rw [pollCheck, hscan]⟩
    | true =>
        refine iff_of_false ?_ (fun h => by cases h)
        rintro ⟨fuel, fds', heq⟩
        have hloops : pollScan fuel fds 0 0 = none := by
          refine pollScan_loops fun j hj => ?_
          obtain ⟨fd, hfd⟩ : ∃ fd, fds[j]? = some fd :=
            ⟨_, List.getElem?_eq_getElem (hj.trans_le hlen)⟩
          refine ⟨_, hfd, List.all_eq_true.mp hall _ ?_⟩
          exact List.mem_of_getElem? ((List.getElem?_take_of_lt hj).trans hfd)
        rw [pollCheck, hloops] at heq
        cases heq

/-! ## Refused calls -/

section Steps
variable [Build] [DecidableEq Q] {T : Type} [DecidableEq T]

/-- The call is over at once: from its start to its end its thread changes no lock and no
backend, so it links no node. -/
def TouchesNothing (e : Entry Q) : Prop :=
  ∀ (s s' : System T Q) (t : T), SysStep s (.start t e.start) s' →
    s'.owner = s.owner ∧ s'.objects = s.objects ∧
      ∀ u u' : System T Q, u.threads t = s'.threads t → SysStep u (.step t) u' →
        u'.owner = u.owner ∧ u'.objects = u.objects ∧ u'.threads t = .idle

/-- Exactly the malformed arrays are refused, and the refused calls touch nothing. -/
structure RefusesMalformed (T : Type) [DecidableEq T] (fds : List (PollFd Q)) : Prop where
  einval : Refuses fds ↔ Malformed fds
  untouched : Refuses fds → TouchesNothing (T := T) (.poll fds)

theorem Refuses.touchesNothing (h : Refuses fds) : TouchesNothing (T := T) (.poll fds) := by
  intro s s' t hstart
  have hdone : (Entry.poll fds).start = .done (-1) := by
    have hvalid := ((refuses_iff_plainlyMalformed fds).mp h).pollValid
    rw [entry_poll_start, hvalid, if_neg Bool.false_ne_true]
  rw [hdone] at hstart
  cases hstart with
  | start hidle hentry =>
      refine ⟨rfl, rfl, fun u u' hthread hstep => ?_⟩
      rw [State.goTo_self] at hthread
      have hcode : ∀ pc, u.threads t = .running pc → code pc = .stop := by
        intro pc hpc
        rw [hthread] at hpc
        cases hpc
        rfl
      cases hstep with
      | stop hpc hc => exact ⟨rfl, rfl, Function.update_self ..⟩
      | relock hpc => cases hthread.symm.trans hpc
      | lock hpc hc => cases (hcode _ hpc).symm.trans hc
      | unlock hpc hc => cases (hcode _ hpc).symm.trans hc
      | wait hpc hc => cases (hcode _ hpc).symm.trans hc
      | signal hpc hc => cases (hcode _ hpc).symm.trans hc
      | signalNone hpc hc => cases (hcode _ hpc).symm.trans hc
      | broadcast hpc hc => cases (hcode _ hpc).symm.trans hc
      | access hpc hc => cases (hcode _ hpc).symm.trans hc
      | alloc hpc hc => cases (hcode _ hpc).symm.trans hc
      | allocFails hpc hc => cases (hcode _ hpc).symm.trans hc
      | goto hpc hc => cases (hcode _ hpc).symm.trans hc

/-- Exactly the malformed arrays are refused, unless the scan cannot see what is wrong. -/
theorem refuses_malformed_iff (fds : List (PollFd Q)) :
    RefusesMalformed T fds ↔ ¬ Malformed fds ∨ PlainlyMalformed fds := by
  have hplain := refuses_iff_plainlyMalformed fds
  constructor
  · intro h
    by_cases hmalformed : Malformed fds
    · exact .inr (hplain.mp (h.einval.mpr hmalformed))
    · exact .inl hmalformed
  · intro h
    refine ⟨⟨fun hrefuses => (hplain.mp hrefuses).malformed, fun hmalformed => ?_⟩,
      Refuses.touchesNothing⟩
    exact hplain.mpr (h.resolve_left (not_not_intro hmalformed))

end Steps

/-- A reader handle and a request for `MQPOLL_READABLE` with a bit that is no event. -/
theorem foreign_bit_accepted :
    letI : Build := ⟨false⟩
    ¬ RefusesMalformed Unit [(⟨some ((), 1), 0x11, 0⟩ : PollFd Unit)] := by
  let _ : Build := ⟨false⟩
  intro h
  have hmalformed : Malformed [(⟨some ((), 1), 0x11, 0⟩ : PollFd Unit)] :=
    .inr ⟨_, List.mem_cons_self, (), 1, rfl, .inr (.inl (by decide))⟩
  have hlen : [(⟨some ((), 1), 0x11, 0⟩ : PollFd Unit)].length < 4294967296 := by decide
  obtain ⟨-, heq⟩ | ⟨hvalid, -⟩ := pollCheck_eq hlen
  · cases (refuses_iff_of_eq heq).mp (h.einval.mpr hmalformed)
  · revert hvalid
    decide

end UoftOs.MsgQueue
