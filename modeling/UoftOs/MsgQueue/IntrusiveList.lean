import UoftOs.Lib.Rings

/-!
# The intrusive circular list

The entries of all lists live in one heap of `next` and `prev` pointers; a list head is
an entry of its own ring. The calls refine sequences: each list holds the sequence of
its entries, and a call changes the sequence of its own list alone.

## Implementation notes

The mutex validator of a list head is left out, and with it the `list` parameter of
`__list_insert` and `list_del`, which serves it alone. A dereference of `NULL` faults.

-/

namespace UoftOs.MsgQueue.IntrusiveList

open Lib.Rings

abbrev Addr := Nat

def null : Addr := 0

structure ListEntry where
  next : Addr
  prev : Addr
  deriving DecidableEq

abbrev Heap := Addr → ListEntry

inductive Fault where
  | nullPointer
  deriving DecidableEq

def Heap.getNext (heap : Heap) (entry : Addr) : Except Fault Addr :=
  if entry = null then .error .nullPointer else .ok (heap entry).next

def Heap.getPrev (heap : Heap) (entry : Addr) : Except Fault Addr :=
  if entry = null then .error .nullPointer else .ok (heap entry).prev

def Heap.setNext (heap : Heap) (entry next : Addr) : Except Fault Heap :=
  if entry = null then .error .nullPointer
  else .ok (Function.update heap entry { heap entry with next := next })

def Heap.setPrev (heap : Heap) (entry prev : Addr) : Except Fault Heap :=
  if entry = null then .error .nullPointer
  else .ok (Function.update heap entry { heap entry with prev := prev })

/-! ## The calls -/

def listInit (list : Addr) (heap : Heap) : Except Fault Heap := do
  let heap ← heap.setNext list list
  heap.setPrev list list

def listEntryInit (entry : Addr) (heap : Heap) : Except Fault Heap := do
  let heap ← heap.setNext entry null
  heap.setPrev entry null

def listEntryIsLinked (entry : Addr) (heap : Heap) : Except Fault Bool := do
  return (← heap.getNext entry) ≠ null

/-- `__list_insert`. -/
def listInsert (entry prev next : Addr) (heap : Heap) : Except Fault Heap := do
  let heap ← heap.setPrev next entry
  let heap ← heap.setNext entry next
  let heap ← heap.setPrev entry prev
  heap.setNext prev entry

def listAddHead (list entry : Addr) (heap : Heap) : Except Fault Heap := do
  listInsert entry list (← heap.getNext list) heap

def listAddTail (list entry : Addr) (heap : Heap) : Except Fault Heap := do
  listInsert entry (← heap.getPrev list) list heap

def listDel (entry : Addr) (heap : Heap) : Except Fault Heap := do
  let heap ← heap.setPrev (← heap.getNext entry) (← heap.getPrev entry)
  let heap ← heap.setNext (← heap.getPrev entry) (← heap.getNext entry)
  listEntryInit entry heap

/-- The entries that the loop of `list_for_each` visits from `pos` on, following `step`. It
is undecided when the loop has not ended after `fuel` rounds. -/
def visits (step : Addr → Except Fault Addr) (list : Addr) :
    Nat → Addr → Option (Except Fault (List Addr))
  | 0, _ => none
  | fuel + 1, pos =>
      if pos = list then some (.ok [])
      else
        match step pos with
        | .error fault => some (.error fault)
        | .ok next => (visits step list fuel next).map (Except.map (pos :: ·))

/-- The loop from the entry behind the list head. -/
def loop (step : Addr → Except Fault Addr) (list : Addr) (fuel : Nat) :
    Option (Except Fault (List Addr)) :=
  match step list with
  | .error fault => some (.error fault)
  | .ok pos => visits step list fuel pos

def listForEach (list : Addr) (heap : Heap) : Nat → Option (Except Fault (List Addr)) :=
  loop heap.getNext list

/-- The loop of `list_for_each` along `prev`. -/
def listForEachPrev (list : Addr) (heap : Heap) : Nat → Option (Except Fault (List Addr)) :=
  loop heap.getPrev list

inductive Call where
  | init (list : Addr)
  | entryInit (entry : Addr)
  | addHead (list entry : Addr)
  | addTail (list entry : Addr)
  | del (list entry : Addr)

def Call.exec : Call → Heap → Except Fault Heap
  | .init list => listInit list
  | .entryInit entry => listEntryInit entry
  | .addHead list entry => listAddHead list entry
  | .addTail list entry => listAddTail list entry
  | .del _ entry => listDel entry

def execAll (calls : List Call) (heap : Heap) : Except Fault Heap :=
  calls.foldlM (fun heap c => c.exec heap) heap

/-! ## Sequences -/

/-- The sequence of each list, and the addresses that hold initialized entries. -/
structure Lists where
  seq : Addr → Option (List Addr)
  entries : Addr → Bool

namespace Lists

def empty : Lists := ⟨fun _ => none, fun _ => false⟩

/-- Another sequence for one list, and whether an address holds an initialized entry. -/
def store (lists : Lists) (list : Addr) (s : Option (List Addr)) (entry : Addr) (b : Bool) : Lists :=
  { seq := Function.update lists.seq list s, entries := Function.update lists.entries entry b }

section Store
variable (lists : Lists) (list : Addr) (s : Option (List Addr)) (entry : Addr) (b : Bool) {a : Addr}

@[simp] theorem store_seq_self : (lists.store list s entry b).seq list = s :=
  Function.update_self ..

@[simp] theorem store_entries_self : (lists.store list s entry b).entries entry = b :=
  Function.update_self ..

theorem store_seq_of_ne (h : a ≠ list) : (lists.store list s entry b).seq a = lists.seq a :=
  Function.update_of_ne h ..

theorem store_entries_of_ne (h : a ≠ entry) :
    (lists.store list s entry b).entries a = lists.entries a :=
  Function.update_of_ne h ..

end Store

def Linked (lists : Lists) (entry : Addr) : Prop :=
  ∃ list xs, lists.seq list = some xs ∧ entry ∈ xs

/-- The address is free for another object: no entry is linked there and no list with entries
has its head there. -/
def Unused (lists : Lists) (a : Addr) : Prop :=
  a ≠ null ∧ ¬ lists.Linked a ∧ ∀ xs, lists.seq a = some xs → xs = []

end Lists

/-- What a call does to the sequences. -/
def Call.spec (lists : Lists) : Call → Lists
  | .init list => lists.store list (some []) list false
  | .entryInit entry => lists.store entry none entry true
  | .addHead list entry =>
      lists.store list ((lists.seq list).map fun xs => entry :: xs) entry true
  | .addTail list entry =>
      lists.store list ((lists.seq list).map fun xs => xs ++ [entry]) entry true
  | .del list entry => lists.store list ((lists.seq list).map fun xs => xs.erase entry) entry true

/-- A new object takes an unused address, an unlinked entry is added to a list, and an
entry is deleted from its own list. -/
def Call.Allowed (lists : Lists) : Call → Prop
  | .init list => lists.Unused list
  | .entryInit entry => lists.Unused entry
  | .addHead list entry | .addTail list entry =>
      (∃ xs, lists.seq list = some xs) ∧ entry ≠ null ∧ ¬ lists.Linked entry ∧
        lists.seq entry = none
  | .del list entry => ∃ xs, lists.seq list = some xs ∧ entry ∈ xs

def AllowedFrom (lists : Lists) : List Call → Prop
  | [] => True
  | c :: calls => c.Allowed lists ∧ AllowedFrom (c.spec lists) calls

def specAll (calls : List Call) (lists : Lists) : Lists := calls.foldl Call.spec lists

/-- The list that a call changes. -/
def Call.target : Call → Addr
  | .init list | .addHead list _ | .addTail list _ | .del list _ => list
  | .entryInit entry => entry

/-! ## What the calls store -/

def Heap.nexts (heap : Heap) (a : Addr) : Addr := (heap a).next

def Heap.prevs (heap : Heap) (a : Addr) : Addr := (heap a).prev

variable {heap heap' : Heap} {lists : Lists} {list entry prev next p v e a : Addr}
  {xs ys as bs : List Addr} {c : Call} {calls : List Call}

theorem Heap.getNext_eq (hp : p ≠ null) : heap.getNext p = .ok (heap.nexts p) := if_neg hp

theorem Heap.getPrev_eq (hp : p ≠ null) : heap.getPrev p = .ok (heap.prevs p) := if_neg hp

theorem Heap.setNext_eq (heap : Heap) (v : Addr) (hp : p ≠ null) : ∃ heap', heap.setNext p v = .ok heap' ∧
    heap'.nexts = Function.update heap.nexts p v ∧ heap'.prevs = heap.prevs := by
  refine ⟨_, if_neg hp, ?_, ?_⟩ <;> funext a <;> by_cases ha : a = p
  · rw [ha, nexts, Function.update_self, Function.update_self]
  · rw [nexts, Function.update_of_ne ha, Function.update_of_ne ha, nexts]
  · rw [ha, prevs, Function.update_self, prevs]
  · rw [prevs, Function.update_of_ne ha, prevs]

theorem Heap.setPrev_eq (heap : Heap) (v : Addr) (hp : p ≠ null) : ∃ heap', heap.setPrev p v = .ok heap' ∧
    heap'.nexts = heap.nexts ∧ heap'.prevs = Function.update heap.prevs p v := by
  refine ⟨_, if_neg hp, ?_, ?_⟩ <;> funext a <;> by_cases ha : a = p
  · rw [ha, nexts, Function.update_self, nexts]
  · rw [nexts, Function.update_of_ne ha, nexts]
  · rw [ha, prevs, Function.update_self, Function.update_self]
  · rw [prevs, Function.update_of_ne ha, Function.update_of_ne ha, prevs]

theorem Heap.eq_of_fields (hnext : heap'.nexts a = heap.nexts a)
    (hprev : heap'.prevs a = heap.prevs a) : heap' a = heap a := by
  rw [nexts, nexts] at hnext
  rw [prevs, prevs] at hprev
  cases h : heap' a with
  | mk next prev =>
      rw [h] at hnext hprev
      rw [show next = (heap a).next from hnext, show prev = (heap a).prev from hprev]

theorem listInit_eq (heap : Heap) (hlist : list ≠ null) : ∃ heap', listInit list heap = .ok heap' ∧
    heap'.nexts = Function.update heap.nexts list list ∧
    heap'.prevs = Function.update heap.prevs list list := by
  obtain ⟨heap₁, h₁, hn₁, hp₁⟩ := Heap.setNext_eq heap list hlist
  obtain ⟨heap₂, h₂, hn₂, hp₂⟩ := Heap.setPrev_eq heap₁ list hlist
  refine ⟨heap₂, ?_, hn₂.trans hn₁, ?_⟩
  · rw [listInit, h₁]
    exact h₂
  · rw [hp₂, hp₁]

theorem listEntryInit_eq (heap : Heap) (hentry : entry ≠ null) : ∃ heap', listEntryInit entry heap = .ok heap' ∧
    heap'.nexts = Function.update heap.nexts entry null ∧
    heap'.prevs = Function.update heap.prevs entry null := by
  obtain ⟨heap₁, h₁, hn₁, hp₁⟩ := Heap.setNext_eq heap null hentry
  obtain ⟨heap₂, h₂, hn₂, hp₂⟩ := Heap.setPrev_eq heap₁ null hentry
  refine ⟨heap₂, ?_, hn₂.trans hn₁, ?_⟩
  · rw [listEntryInit, h₁]
    exact h₂
  · rw [hp₂, hp₁]

theorem listInsert_eq (heap : Heap) (hentry : entry ≠ null) (hprev : prev ≠ null) (hnext : next ≠ null) :
    ∃ heap', listInsert entry prev next heap = .ok heap' ∧
      heap'.nexts = Function.update (Function.update heap.nexts entry next) prev entry ∧
      heap'.prevs = Function.update (Function.update heap.prevs next entry) entry prev := by
  obtain ⟨heap₁, h₁, hn₁, hp₁⟩ := Heap.setPrev_eq heap entry hnext
  obtain ⟨heap₂, h₂, hn₂, hp₂⟩ := Heap.setNext_eq heap₁ next hentry
  obtain ⟨heap₃, h₃, hn₃, hp₃⟩ := Heap.setPrev_eq heap₂ prev hentry
  obtain ⟨heap₄, h₄, hn₄, hp₄⟩ := Heap.setNext_eq heap₃ entry hprev
  refine ⟨heap₄, ?_, ?_, ?_⟩
  · rw [listInsert, h₁]
    change (heap₁.setNext entry next >>= _) = _
    rw [h₂]
    change (heap₂.setPrev entry prev >>= _) = _
    rw [h₃]
    exact h₄
  · rw [hn₄, hn₃, hn₂, hn₁]
  · rw [hp₄, hp₃, hp₂, hp₁]

theorem listDel_eq (heap : Heap) (hentry : entry ≠ null) (hn : heap.nexts entry = next)
    (hp : heap.prevs entry = prev) (hnext : next ≠ null) (hprev : prev ≠ null) (hne : entry ≠ next) :
    ∃ heap', listDel entry heap = .ok heap' ∧
      heap'.nexts = Function.update (Function.update heap.nexts prev next) entry null ∧
      heap'.prevs = Function.update (Function.update heap.prevs next prev) entry null := by
  obtain ⟨heap₁, h₁, hn₁, hp₁⟩ := Heap.setPrev_eq heap prev hnext
  obtain ⟨heap₂, h₂, hn₂, hp₂⟩ := Heap.setNext_eq heap₁ next hprev
  obtain ⟨heap₃, h₃, hn₃, hp₃⟩ := listEntryInit_eq heap₂ hentry
  have hreadPrev : heap₁.prevs entry = prev := by rw [hp₁, Function.update_of_ne hne, hp]
  have hreadNext : heap₁.nexts entry = next := by rw [hn₁, hn]
  refine ⟨heap₃, ?_, ?_, ?_⟩
  · rw [listDel, Heap.getNext_eq hentry, Heap.getPrev_eq hentry, hn, hp]
    change (heap.setPrev next prev >>= _) = _
    rw [h₁]
    change (heap₁.getPrev entry >>= fun p => heap₁.getNext entry >>= fun n =>
      heap₁.setNext p n >>= fun heap => listEntryInit entry heap) = _
    rw [Heap.getPrev_eq hentry, Heap.getNext_eq hentry, hreadPrev, hreadNext]
    change (heap₁.setNext prev next >>= _) = _
    rw [h₂]
    exact h₃
  · rw [hn₃, hn₂, hn₁]
  · rw [hp₃, hp₂, hp₁]

/-! ## The refinement -/

/-- Each list is a ring of its own, and an initialized entry in no list has no neighbours. -/
structure Refines (heap : Heap) (lists : Lists) : Prop where
  ring : ∀ list xs, lists.seq list = some xs → Ring heap.nexts heap.prevs list xs
  ne_null : ∀ list xs, lists.seq list = some xs → ∀ a ∈ list :: xs, a ≠ null
  apart : ∀ list xs list' ys, lists.seq list = some xs → lists.seq list' = some ys →
    list ≠ list' → ∀ a ∈ list :: xs, a ∉ list' :: ys
  entry : ∀ e, lists.entries e = true → e ≠ null ∧ lists.seq e = none
  unlinked : ∀ e, lists.entries e = true → ¬ lists.Linked e → heap.nexts e = null

/-- The lists that the call does not name keep their pointers. -/
def Frames (heap heap' : Heap) (lists : Lists) (c : Call) : Prop :=
  ∀ list xs, lists.seq list = some xs → list ≠ c.target → ∀ a ∈ list :: xs, heap' a = heap a

theorem refines_empty (heap : Heap) : Refines heap Lists.empty where
  ring _ _ h := by cases h
  ne_null _ _ h := by cases h
  apart _ _ _ _ h := by cases h
  entry _ h := by cases h
  unlinked _ h := by cases h

theorem Lists.seq_store {s : Option (List Addr)} {b : Bool} {list' : Addr} {zs : List Addr}
    (h : (lists.store list s e b).seq list' = some zs) :
    list' = list ∧ s = some zs ∨ list' ≠ list ∧ lists.seq list' = some zs := by
  by_cases hlist : list' = list
  · rw [hlist, store_seq_self] at h
    exact .inl ⟨hlist, h⟩
  · rw [store_seq_of_ne _ _ _ _ _ hlist] at h
    exact .inr ⟨hlist, h⟩

/-- An address in no list is no part of a list with another head. -/
theorem Lists.not_mem_of_unlinked (he : ¬ lists.Linked e) (hs : lists.seq list = some xs)
    (hne : e ≠ list) : e ∉ list :: xs := by
  rw [List.mem_cons, not_or]
  exact ⟨hne, fun hmem => he ⟨list, xs, hs, hmem⟩⟩

/-- A call works on the ring of one list and on one entry, which no other list has. -/
structure Works (heap heap' : Heap) (lists : Lists) (list e : Addr) (xs : List Addr) : Prop where
  seq : ∀ zs, lists.seq list = some zs → zs = xs
  head : list = e ∨ lists.seq list = some xs
  keeps : ∀ a, a ∉ list :: e :: xs → heap' a = heap a
  others : ∀ list' zs, lists.seq list' = some zs → list' ≠ list → ∀ a ∈ list' :: zs,
    a ∉ list :: e :: xs

theorem Works.same (w : Works heap heap' lists list e xs) {list' : Addr} {zs : List Addr}
    (hs : lists.seq list' = some zs) (hne : list' ≠ list) : ∀ a ∈ list' :: zs, heap' a = heap a :=
  fun a ha => w.keeps a (w.others _ _ hs hne a ha)

namespace Refines

/-- The ring has a new sequence, which differs from the old one in the entry at most. -/
theorem store {s : Option (List Addr)} {b : Bool} (h : Refines heap lists)
    (w : Works heap heap' lists list e xs)
    (hring : ∀ ys, s = some ys → Ring heap'.nexts heap'.prevs list ys ∧
      ∀ a ∈ list :: ys, a ≠ null ∧ a ∈ list :: e :: xs)
    (hold : ∀ a ∈ xs, a ≠ e → ∃ ys, s = some ys ∧ a ∈ ys)
    (hentry : b = true → e ≠ null ∧ (lists.store list s e b).seq e = none ∧
      ((∀ ys, s = some ys → e ∉ ys) → heap'.nexts e = null)) :
    Refines heap' (lists.store list s e b) where
  ring list' zs hs' := by
    rcases Lists.seq_store hs' with ⟨rfl, hs⟩ | ⟨hlist, hs⟩
    · exact (hring zs hs).1
    · exact (h.ring _ _ hs).congr fun a ha =>
        ⟨congrArg ListEntry.next (w.same hs hlist a ha),
          congrArg ListEntry.prev (w.same hs hlist a ha)⟩
  ne_null list' zs hs' a ha := by
    rcases Lists.seq_store hs' with ⟨rfl, hs⟩ | ⟨_, hs⟩
    · exact ((hring zs hs).2 a ha).1
    · exact h.ne_null _ _ hs a ha
  apart list₁ xs₁ list₂ xs₂ h₁ h₂ hdiff a ha hmem := by
    rcases Lists.seq_store h₁ with ⟨rfl, hs₁⟩ | ⟨hlist₁, hs₁⟩ <;>
      rcases Lists.seq_store h₂ with ⟨rfl, hs₂⟩ | ⟨hlist₂, hs₂⟩
    · exact hdiff rfl
    · exact w.others _ _ hs₂ hlist₂ a hmem ((hring _ hs₁).2 a ha).2
    · exact w.others _ _ hs₁ hlist₁ a ha ((hring _ hs₂).2 a hmem).2
    · exact h.apart _ _ _ _ hs₁ hs₂ hdiff a ha hmem
  entry e' he' := by
    by_cases hee : e' = e
    · subst hee
      rw [Lists.store_entries_self] at he'
      exact ⟨(hentry he').1, (hentry he').2.1⟩
    · rw [Lists.store_entries_of_ne _ _ _ _ _ hee] at he'
      obtain ⟨hne, hnone⟩ := h.entry e' he'
      refine ⟨hne, (Lists.store_seq_of_ne _ _ _ _ _ ?_).trans hnone⟩
      rintro rfl
      rcases w.head with heq | hs
      · exact hee heq
      · rw [hnone] at hs
        cases hs
  unlinked e' he' hunlinked := by
    have hnotin : ∀ ys, s = some ys → e' ∉ ys := fun ys hs hmem =>
      hunlinked ⟨list, ys, (Lists.store_seq_self ..).trans hs, hmem⟩
    by_cases hee : e' = e
    · subst hee
      rw [Lists.store_entries_self] at he'
      exact (hentry he').2.2 hnotin
    · rw [Lists.store_entries_of_ne _ _ _ _ _ hee] at he'
      have hbefore : ¬ lists.Linked e' := by
        rintro ⟨list', zs, hs', hmem⟩
        by_cases hlist : list' = list
        · subst hlist
          obtain ⟨ys, hs, hin⟩ := hold e' (w.seq zs hs' ▸ hmem) hee
          exact hnotin ys hs hin
        · exact hunlinked ⟨list', zs, (Lists.store_seq_of_ne _ _ _ _ _ hlist).trans hs', hmem⟩
      have hcell : e' ∉ list :: e :: xs := by
        rcases w.head with heq | hs
        · rw [List.mem_cons, List.mem_cons, not_or, not_or]
          refine ⟨heq ▸ hee, hee, fun hmem => ?_⟩
          obtain ⟨ys, hs, hin⟩ := hold e' hmem hee
          exact hnotin ys hs hin
        · have hne : e' ≠ list := by
            rintro rfl
            rw [(h.entry _ he').2] at hs
            cases hs
          have hapart := Lists.not_mem_of_unlinked hbefore hs hne
          rw [List.mem_cons, not_or] at hapart
          simp only [List.mem_cons, not_or]
          exact ⟨hne, hee, hapart.2⟩
      exact (congrArg ListEntry.next (w.keeps e' hcell)).trans (h.unlinked e' he' hbefore)

theorem works_unused (hun : lists.Unused a) (hkeeps : ∀ x, x ≠ a → heap' x = heap x) :
    Works heap heap' lists a a [] where
  seq := hun.2.2
  head := .inl rfl
  keeps x hx := hkeeps x fun heq => hx (heq ▸ List.mem_cons_self)
  others list' zs hs hne x hx hmem := by
    have hxa : x = a := by simpa using hmem
    exact Lists.not_mem_of_unlinked hun.2.1 hs hne.symm (hxa ▸ hx)

theorem listInit (h : Refines heap lists) (hun : lists.Unused list) :
    ∃ heap', IntrusiveList.listInit list heap = .ok heap' ∧
      Works heap heap' lists list list [] ∧
      Refines heap' (lists.store list (some []) list false) := by
  obtain ⟨heap', hrun, hn, hp⟩ := listInit_eq heap hun.1
  have w : Works heap heap' lists list list [] := by
    refine works_unused hun fun x hx => Heap.eq_of_fields ?_ ?_
    · rw [hn, Function.update_of_ne hx]
    · rw [hp, Function.update_of_ne hx]
  refine ⟨heap', hrun, w, h.store w ?_ (fun a ha => by cases ha) (fun hb => by cases hb)⟩
  intro ys hys
  cases hys
  refine ⟨Ring.empty ?_ ?_, ?_⟩
  · rw [hn, Function.update_self]
  · rw [hp, Function.update_self]
  · intro a ha
    rw [List.mem_singleton.mp ha]
    exact ⟨hun.1, List.mem_cons_self⟩

theorem listEntryInit (h : Refines heap lists) (hun : lists.Unused entry) :
    ∃ heap', IntrusiveList.listEntryInit entry heap = .ok heap' ∧
      Works heap heap' lists entry entry [] ∧
      Refines heap' (lists.store entry none entry true) := by
  obtain ⟨heap', hrun, hn, hp⟩ := listEntryInit_eq heap hun.1
  have w : Works heap heap' lists entry entry [] := by
    refine works_unused hun fun x hx => Heap.eq_of_fields ?_ ?_
    · rw [hn, Function.update_of_ne hx]
    · rw [hp, Function.update_of_ne hx]
  refine ⟨heap', hrun, w,
    h.store w (fun ys hys => by cases hys) (fun a ha => by cases ha) fun _ => ⟨hun.1, ?_, fun _ => ?_⟩⟩
  · exact Lists.store_seq_self ..
  · rw [hn, Function.update_self]

/-- `__list_insert` of an unlinked entry between two neighbours. -/
theorem listInsert (h : Refines heap lists) (as bs : List Addr) (hs : lists.seq list = some (as ++ bs))
    (he : e ≠ null) (hun : ¬ lists.Linked e) (hhead : lists.seq e = none) :
    ∃ heap', IntrusiveList.listInsert e (as.getLastD list) (bs.headD list) heap = .ok heap' ∧
      Works heap heap' lists list e (as ++ bs) ∧
      Refines heap' (lists.store list (some (as ++ e :: bs)) e true) := by
  have hlast : as.getLastD list ∈ list :: (as ++ bs) := by
    rw [← List.cons_append]
    exact List.mem_append_left _ List.getLastD_mem_cons
  have hfirst : bs.headD list ∈ list :: (as ++ bs) := by
    cases bs with
    | nil => exact List.mem_cons_self
    | cons b bs => exact List.mem_cons_of_mem _ (List.mem_append_right _ List.mem_cons_self)
  have hlist : e ≠ list := by
    rintro rfl
    rw [hhead] at hs
    cases hs
  have hfresh : e ∉ list :: (as ++ bs) := Lists.not_mem_of_unlinked hun hs hlist
  obtain ⟨heap', hrun, hn, hp⟩ := listInsert_eq heap he (h.ne_null _ _ hs _ hlast)
    (h.ne_null _ _ hs _ hfirst)
  have w : Works heap heap' lists list e (as ++ bs) := by
    refine ⟨fun zs hzs => ?_, .inr hs, fun a ha => ?_, fun list' zs hs' hne a ha hmem => ?_⟩
    · rw [hs] at hzs
      exact (Option.some.inj hzs).symm
    · have hae : a ≠ e := fun heq => ha (heq ▸ List.mem_cons_of_mem _ List.mem_cons_self)
      have hring : a ∉ list :: (as ++ bs) := by
        intro hmem
        rcases List.mem_cons.mp hmem with rfl | hmem
        · exact ha List.mem_cons_self
        · exact ha (List.mem_cons_of_mem _ (List.mem_cons_of_mem _ hmem))
      refine Heap.eq_of_fields ?_ ?_
      · rw [hn, Function.update_of_ne (ne_of_mem_of_not_mem hlast hring).symm,
          Function.update_of_ne hae]
      · rw [hp, Function.update_of_ne hae,
          Function.update_of_ne (ne_of_mem_of_not_mem hfirst hring).symm]
    · have hother : e ∉ list' :: zs := by
        refine Lists.not_mem_of_unlinked hun hs' ?_
        rintro rfl
        rw [hhead] at hs'
        cases hs'
      have hapart := h.apart _ _ _ _ hs' hs hne a ha
      rw [List.mem_cons, not_or] at hapart
      rcases List.mem_cons.mp hmem with rfl | hmem
      · exact hapart.1 rfl
      · rcases List.mem_cons.mp hmem with rfl | hmem
        · exact hother ha
        · exact hapart.2 hmem
  refine ⟨heap', hrun, w, h.store w ?_ ?_ fun _ => ⟨he, ?_, fun hout => ?_⟩⟩
  · intro ys hys
    cases hys
    refine ⟨?_, fun a ha => ?_⟩
    · rw [hn, hp]
      exact (h.ring _ _ hs).insert hfresh rfl rfl
    · have hmem : a ∈ list :: e :: (as ++ bs) :=
        (List.perm_middle.cons list).mem_iff.mp ha
      refine ⟨?_, hmem⟩
      by_cases hae : a = e
      · exact hae ▸ he
      · refine h.ne_null _ _ hs a ?_
        rcases List.mem_cons.mp hmem with rfl | hmem
        · exact List.mem_cons_self
        · exact List.mem_cons_of_mem _ ((List.mem_cons.mp hmem).resolve_left hae)
  · exact fun a ha _ => ⟨_, rfl, List.perm_middle.mem_iff.mpr (List.mem_cons_of_mem _ ha)⟩
  · rw [Lists.store_seq_of_ne _ _ _ _ _ hlist]
    exact hhead
  · exact absurd (List.mem_append_right _ List.mem_cons_self) (hout _ rfl)

theorem listDel (h : Refines heap lists) (hs : lists.seq list = some (as ++ e :: bs)) :
    ∃ heap', IntrusiveList.listDel e heap = .ok heap' ∧
      Works heap heap' lists list e (as ++ e :: bs) ∧
      Refines heap' (lists.store list (some (as ++ bs)) e true) := by
  have hring := h.ring _ _ hs
  have hmem : e ∈ as ++ e :: bs := List.mem_append_right _ List.mem_cons_self
  have hfresh : e ∉ list :: (as ++ bs) := by
    have hperm : (list :: (as ++ e :: bs)).Perm (e :: list :: (as ++ bs)) :=
      (List.perm_middle.cons list).trans (List.Perm.swap ..)
    exact (List.nodup_cons.mp (hperm.nodup_iff.mp hring.nodup)).1
  have hlast : heap.prevs e ∈ list :: (as ++ bs) := by
    rw [hring.prev_mem, ← List.cons_append]
    exact List.mem_append_left _ List.getLastD_mem_cons
  have hfirst : heap.nexts e ∈ list :: (as ++ bs) := by
    rw [hring.next_mem]
    cases bs with
    | nil => exact List.mem_cons_self
    | cons b bs => exact List.mem_cons_of_mem _ (List.mem_append_right _ List.mem_cons_self)
  have hsub : ∀ a ∈ list :: (as ++ bs), a ∈ list :: (as ++ e :: bs) :=
    (((List.sublist_cons_self e bs).append_left as).cons_cons list).subset
  have he : e ≠ null := h.ne_null _ _ hs e (List.mem_cons_of_mem _ hmem)
  obtain ⟨heap', hrun, hn, hp⟩ := listDel_eq heap he rfl rfl
    (h.ne_null _ _ hs _ (hsub _ hfirst)) (h.ne_null _ _ hs _ (hsub _ hlast))
    (ne_of_mem_of_not_mem hfirst hfresh).symm
  have w : Works heap heap' lists list e (as ++ e :: bs) := by
    refine ⟨fun zs hzs => ?_, .inr hs, fun a ha => ?_, fun list' zs hs' hne a ha hin => ?_⟩
    · rw [hs] at hzs
      exact (Option.some.inj hzs).symm
    · have hae : a ≠ e := fun heq => ha (heq ▸ List.mem_cons_of_mem _ List.mem_cons_self)
      have hnot : a ∉ list :: (as ++ e :: bs) := by
        intro hmem
        rcases List.mem_cons.mp hmem with rfl | hmem
        · exact ha List.mem_cons_self
        · exact ha (List.mem_cons_of_mem _ (List.mem_cons_of_mem _ hmem))
      refine Heap.eq_of_fields ?_ ?_
      · rw [hn, Function.update_of_ne hae,
          Function.update_of_ne (ne_of_mem_of_not_mem (hsub _ hlast) hnot).symm]
      · rw [hp, Function.update_of_ne hae,
          Function.update_of_ne (ne_of_mem_of_not_mem (hsub _ hfirst) hnot).symm]
    · refine h.apart _ _ _ _ hs' hs hne a ha ?_
      rcases List.mem_cons.mp hin with rfl | hin
      · exact List.mem_cons_self
      · rcases List.mem_cons.mp hin with rfl | hin
        · exact List.mem_cons_of_mem _ hmem
        · exact List.mem_cons_of_mem _ hin
  refine ⟨heap', hrun, w, h.store w ?_ ?_ fun _ => ⟨he, ?_, fun _ => ?_⟩⟩
  · intro ys hys
    cases hys
    refine ⟨hring.delete.congr fun a ha => ?_, fun a ha => ?_⟩
    · have hae := ne_of_mem_of_not_mem ha hfresh
      rw [hn, hp, Function.update_of_ne hae, Function.update_of_ne hae]
      exact ⟨rfl, rfl⟩
    · refine ⟨h.ne_null _ _ hs a (hsub a ha), ?_⟩
      rcases List.mem_cons.mp (hsub a ha) with rfl | hin
      · exact List.mem_cons_self
      · exact List.mem_cons_of_mem _ (List.mem_cons_of_mem _ hin)
  · intro a ha hae
    refine ⟨_, rfl, ?_⟩
    rcases List.mem_append.mp ha with hin | hin
    · exact List.mem_append_left _ hin
    · exact List.mem_append_right _ ((List.mem_cons.mp hin).resolve_left hae)
  · have hlist : e ≠ list := fun heq => hfresh (heq ▸ List.mem_cons_self)
    rw [Lists.store_seq_of_ne _ _ _ _ _ hlist]
    by_contra hsome
    obtain ⟨zs, hzs⟩ := Option.ne_none_iff_exists'.mp hsome
    exact h.apart _ _ _ _ hs hzs hlist.symm e (List.mem_cons_of_mem _ hmem) List.mem_cons_self
  · rw [hn, Function.update_self]

/-- Every allowed call succeeds, keeps the refinement and leaves the other lists alone. -/
theorem exec (h : Refines heap lists) (hc : c.Allowed lists) :
    ∃ heap', c.exec heap = .ok heap' ∧ Refines heap' (c.spec lists) ∧
      ∀ list xs, lists.seq list = some xs → list ≠ c.target →
        (c.spec lists).seq list = some xs ∧ ∀ a ∈ list :: xs, heap' a = heap a := by
  have hothers : ∀ {heap' list e xs s b}, Works heap heap' lists list e xs →
      ∀ list' zs, lists.seq list' = some zs → list' ≠ list →
        (lists.store list s e b).seq list' = some zs ∧ ∀ a ∈ list' :: zs, heap' a = heap a :=
    fun w list' zs hs hne =>
      ⟨(Lists.store_seq_of_ne _ _ _ _ _ hne).trans hs, w.same hs hne⟩
  cases c with
  | init list =>
      obtain ⟨heap', hrun, w, h'⟩ := h.listInit hc
      exact ⟨heap', hrun, h', hothers w⟩
  | entryInit entry =>
      obtain ⟨heap', hrun, w, h'⟩ := h.listEntryInit hc
      exact ⟨heap', hrun, h', hothers w⟩
  | addHead list entry =>
      obtain ⟨⟨xs, hs⟩, he, hun, hhead⟩ := hc
      obtain ⟨heap', hrun, w, h'⟩ := h.listInsert [] xs hs he hun hhead
      refine ⟨heap', ?_, ?_, hothers w⟩
      · rw [Call.exec, listAddHead, Heap.getNext_eq (h.ne_null _ _ hs _ List.mem_cons_self),
          (h.ring _ _ hs).next_start]
        exact hrun
      · rw [Call.spec, hs]
        exact h'
  | addTail list entry =>
      obtain ⟨⟨xs, hs⟩, he, hun, hhead⟩ := hc
      obtain ⟨heap', hrun, w, h'⟩ := h.listInsert xs []
        (by rwa [List.append_nil]) he hun hhead
      refine ⟨heap', ?_, ?_, hothers w⟩
      · rw [Call.exec, listAddTail, Heap.getPrev_eq (h.ne_null _ _ hs _ List.mem_cons_self),
          (h.ring _ _ hs).prev_start]
        exact hrun
      · rw [Call.spec, hs]
        exact h'
  | del list entry =>
      obtain ⟨xs, hs, hmem⟩ := hc
      obtain ⟨as, bs, _, rfl, herase⟩ := List.exists_erase_eq hmem
      obtain ⟨heap', hrun, w, h'⟩ := h.listDel hs
      refine ⟨heap', hrun, ?_, hothers w⟩
      rw [Call.spec, hs, Option.map_some, herase]
      exact h'

/-- The refinement along a sequence of calls. -/
theorem execAll (h : Refines heap lists) (hall : AllowedFrom lists calls) :
    ∃ heap', IntrusiveList.execAll calls heap = .ok heap' ∧ Refines heap' (specAll calls lists) := by
  induction calls generalizing heap lists with
  | nil => exact ⟨heap, rfl, h⟩
  | cons c calls ih =>
      obtain ⟨heap₁, hrun, h₁, _⟩ := h.exec hall.1
      obtain ⟨heap', hrest, h'⟩ := ih h₁ hall.2
      refine ⟨heap', ?_, h'⟩
      rw [IntrusiveList.execAll, List.foldlM_cons, hrun]
      exact hrest

end Refines

/-! ## Observations -/

/-- The loop visits the points of a path up to the list head. -/
theorem visits_path {step : Addr → Except Fault Addr} {f : Addr → Addr} {fuel : Nat}
    (hstep : ∀ p, p ≠ null → step p = .ok (f p)) (h : Path f a xs list) (hlist : list ∉ xs)
    (hnull : null ∉ xs) (hfuel : xs.length < fuel) :
    visits step list fuel (f a) = some (.ok xs) := by
  induction xs generalizing a fuel with
  | nil =>
      obtain ⟨fuel, rfl⟩ := Nat.exists_eq_succ_of_ne_zero (Nat.ne_of_gt hfuel)
      exact if_pos h
  | cons x xs ih =>
      obtain ⟨fuel, rfl⟩ := Nat.exists_eq_succ_of_ne_zero (Nat.ne_of_gt (Nat.zero_lt_of_lt hfuel))
      rw [List.mem_cons, not_or] at hlist hnull
      rw [h.1, visits, if_neg (Ne.symm hlist.1), hstep x (Ne.symm hnull.1)]
      have hrest := ih h.2 hlist.2 hnull.2 (Nat.lt_of_succ_lt_succ hfuel)
      simp only [hrest]
      rfl

/-- What the code reads off the heap: the loops over a list, and whether an entry is linked. -/
structure Observes (heap : Heap) (lists : Lists) : Prop where
  forEach : ∀ list xs, lists.seq list = some xs → ∀ fuel, xs.length < fuel →
    listForEach list heap fuel = some (.ok xs)
  forEachPrev : ∀ list xs, lists.seq list = some xs → ∀ fuel, xs.length < fuel →
    listForEachPrev list heap fuel = some (.ok xs.reverse)
  isLinked : ∀ e, lists.entries e = true → ∃ b, listEntryIsLinked e heap = .ok b ∧
    (b = true ↔ lists.Linked e)

theorem Refines.observes (h : Refines heap lists) : Observes heap lists where
  forEach list xs hs fuel hfuel := by
    have hring := h.ring _ _ hs
    have hne := h.ne_null _ _ hs
    rw [listForEach, loop, Heap.getNext_eq (hne list List.mem_cons_self)]
    exact visits_path (fun p hp => Heap.getNext_eq hp) hring.forward
      (List.nodup_cons.mp hring.nodup).1 (fun hnull => hne _ (List.mem_cons_of_mem _ hnull) rfl) hfuel
  forEachPrev list xs hs fuel hfuel := by
    have hring := h.ring _ _ hs
    have hne := h.ne_null _ _ hs
    rw [listForEachPrev, loop, Heap.getPrev_eq (hne list List.mem_cons_self)]
    refine visits_path (fun p hp => Heap.getPrev_eq hp) hring.backward ?_ ?_ ?_
    · rw [List.mem_reverse]
      exact (List.nodup_cons.mp hring.nodup).1
    · rw [List.mem_reverse]
      exact fun hnull => hne _ (List.mem_cons_of_mem _ hnull) rfl
    · rwa [List.length_reverse]
  isLinked e he := by
    refine ⟨heap.nexts e ≠ null, ?_, ?_⟩
    · rw [listEntryIsLinked, Heap.getNext_eq (h.entry e he).1]
      rfl
    · rw [decide_eq_true_iff]
      constructor
      · intro hnext
        by_contra hunlinked
        exact hnext (h.unlinked e he hunlinked)
      · rintro ⟨list, xs, hs, hmem⟩
        obtain ⟨as, bs, rfl⟩ := List.append_of_mem hmem
        rw [(h.ring _ _ hs).next_mem]
        cases bs with
        | nil => exact h.ne_null _ _ hs _ List.mem_cons_self
        | cons b bs => exact h.ne_null _ _ hs b (by simp)

/-- The heap reached by any sequence of calls shows the sequences of the lists, and every
further call leaves the pointers and the sequences of the other lists as they are. -/
theorem list_refines_sequences (heap : Heap) (calls : List Call)
    (hall : AllowedFrom Lists.empty calls) :
    ∃ heap', execAll calls heap = .ok heap' ∧ Observes heap' (specAll calls Lists.empty) ∧
      ∀ c : Call, c.Allowed (specAll calls Lists.empty) → ∃ heap'', c.exec heap' = .ok heap'' ∧
        ∀ list xs, (specAll calls Lists.empty).seq list = some xs → list ≠ c.target →
          (c.spec (specAll calls Lists.empty)).seq list = some xs ∧
            ∀ a ∈ list :: xs, heap'' a = heap' a := by
  obtain ⟨heap', hrun, h'⟩ := (refines_empty heap).execAll hall
  refine ⟨heap', hrun, h'.observes, fun c hc => ?_⟩
  obtain ⟨heap'', hstep, _, hothers⟩ := h'.exec hc
  exact ⟨heap'', hstep, hothers⟩

/-- The entry that a call links. -/
def Call.adds : Call → List Addr
  | .addHead _ entry | .addTail _ entry => [entry]
  | _ => []

/-- An entry that is linked after a store is in the stored sequence, or was linked before. -/
theorem Lists.linked_store {s : Option (List Addr)} {b : Bool}
    (h : (lists.store list s e b).Linked a) : (∃ xs, s = some xs ∧ a ∈ xs) ∨ lists.Linked a := by
  obtain ⟨list', xs, hs, hmem⟩ := h
  rcases Lists.seq_store hs with ⟨-, hxs⟩ | ⟨-, hseq⟩
  · exact .inl ⟨xs, hxs, hmem⟩
  · exact .inr ⟨list', xs, hseq, hmem⟩

/-- The same when the stored sequence is made from the one that the list has. -/
theorem Lists.linked_store_map {f : List Addr → List Addr} {b : Bool} {as : List Addr}
    (hf : ∀ xs, a ∈ f xs → a ∈ as ∨ a ∈ xs)
    (h : (lists.store list ((lists.seq list).map f) e b).Linked a) : a ∈ as ∨ lists.Linked a := by
  rcases linked_store h with ⟨xs, hxs, hmem⟩ | hlinked
  · obtain ⟨ys, hys, rfl⟩ := Option.map_eq_some_iff.mp hxs
    exact (hf ys hmem).imp_right fun hmem => ⟨list, ys, hys, hmem⟩
  · exact .inr hlinked

/-- A call links no entry but its own. -/
theorem Call.linked_spec (h : (c.spec lists).Linked a) : a ∈ c.adds ∨ lists.Linked a := by
  cases c with
  | init list =>
      refine .inr ((Lists.linked_store h).resolve_left ?_)
      rintro ⟨_, ⟨⟩, hmem⟩
      cases hmem
  | entryInit entry =>
      refine .inr ((Lists.linked_store h).resolve_left ?_)
      rintro ⟨_, ⟨⟩, -⟩
  | addHead list entry =>
      exact Lists.linked_store_map (fun xs hmem => by simpa [Call.adds] using hmem) h
  | addTail list entry =>
      exact Lists.linked_store_map (fun xs hmem => by simpa [Call.adds, or_comm] using hmem) h
  | del list entry =>
      exact Lists.linked_store_map (fun xs hmem => .inr (List.mem_of_mem_erase hmem)) h

theorem specAll_linked (h : (specAll calls lists).Linked a) :
    (∃ c ∈ calls, a ∈ c.adds) ∨ lists.Linked a := by
  induction calls generalizing lists with
  | nil => exact .inr h
  | cons c calls ih =>
      rcases ih h with ⟨c', hc', ha⟩ | hlinked
      · exact .inl ⟨c', List.mem_cons_of_mem _ hc', ha⟩
      · exact (Call.linked_spec hlinked).imp_left fun ha => ⟨c, List.mem_cons_self, ha⟩

/-- Two lists at 1 and 2 get entries at both ends, and lose one. -/
def twoLists : List Call :=
  [.init 1, .init 2, .entryInit 3, .entryInit 4, .entryInit 5, .entryInit 6, .addTail 1 3,
    .addHead 1 4, .addTail 2 5, .addHead 2 6, .del 2 5]

theorem twoLists_allowed : AllowedFrom Lists.empty twoLists := by
  have unlinked {n : Nat} {a : Addr} (ha : ∀ c ∈ twoLists.take n, a ∉ c.adds) :
      ¬ (specAll (twoLists.take n) Lists.empty).Linked a := fun h => by
    rcases specAll_linked h with ⟨c, hc, hadds⟩ | ⟨_, _, hs, _⟩
    · exact ha c hc hadds
    · cases hs
  have fresh {n : Nat} {a : Addr} (h : (specAll (twoLists.take n) Lists.empty).seq a = none) :
      ∀ xs, (specAll (twoLists.take n) Lists.empty).seq a = some xs → xs = [] := fun xs hs => by
    rw [h] at hs
    cases hs
  have new (n : Nat) (a : Addr) (hnull : a ≠ null) (ha : ∀ c ∈ twoLists.take n, a ∉ c.adds)
      (h : (specAll (twoLists.take n) Lists.empty).seq a = none) :
      (specAll (twoLists.take n) Lists.empty).Unused a := ⟨hnull, unlinked ha, fresh h⟩
  refine ⟨new 0 1 ?_ ?_ rfl, new 1 2 ?_ ?_ rfl, new 2 3 ?_ ?_ rfl, new 3 4 ?_ ?_ rfl,
    new 4 5 ?_ ?_ rfl, new 5 6 ?_ ?_ rfl, ⟨⟨[], rfl⟩, ?_, unlinked (n := 6) ?_, rfl⟩,
    ⟨⟨[3], rfl⟩, ?_, unlinked (n := 7) ?_, rfl⟩, ⟨⟨[], rfl⟩, ?_, unlinked (n := 8) ?_, rfl⟩,
    ⟨⟨[5], rfl⟩, ?_, unlinked (n := 9) ?_, rfl⟩, ⟨[6, 5], rfl, ?_⟩, trivial⟩ <;> decide

/-- The entry 3 is deleted from the first list, which keeps 4; the second one keeps its
pointers. -/
theorem list_refines_sequences_two :
    ∃ heap' heap'', execAll twoLists (fun _ => ⟨null, null⟩) = .ok heap' ∧
      listForEach 1 heap' 3 = some (.ok [4, 3]) ∧ listForEachPrev 2 heap' 2 = some (.ok [6]) ∧
      (Call.del 1 3).exec heap' = .ok heap'' ∧ ∀ a ∈ [2, 6], heap'' a = heap' a := by
  obtain ⟨heap', hrun, hobserves, hnext⟩ :=
    list_refines_sequences (fun _ => ⟨null, null⟩) twoLists twoLists_allowed
  obtain ⟨heap'', hdel, hothers⟩ := hnext (.del 1 3) ⟨[4, 3], rfl, by decide⟩
  exact ⟨heap', heap'', hrun, hobserves.forEach 1 [4, 3] rfl 3 (by decide),
    hobserves.forEachPrev 2 [6] rfl 2 (by decide), hdel, (hothers 2 [6] rfl (by decide)).2⟩

end UoftOs.MsgQueue.IntrusiveList
