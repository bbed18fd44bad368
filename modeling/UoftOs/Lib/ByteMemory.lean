import Mathlib.Data.List.GetD
import Mathlib.Data.List.TakeWhile
import UoftOs.Lib.Frames

/-!
# Byte-addressed memory

A memory gives a byte at every address. Blocks of bytes are stored and read as
lists, fixed-width numbers through their little-endian bytes, and strings up to
their terminating zero.

## Implementation notes

Every store goes through `store` and every read through `bytesAt`, so two lemmas
carry all reasoning about separate and about equal ranges.
-/

namespace UoftOs.Lib.ByteMemory

open Frames

/-- The bytes at all addresses. -/
abbrev Memory := Int → UInt8

/-- The `n` bytes from address `a` on. -/
def bytesAt (m : Memory) (a : Int) (n : Nat) : List UInt8 :=
  (List.range n).map fun (i : Nat) => m (a + i)

/-- The memory after storing `bs` at address `a`. -/
def store (m : Memory) (a : Int) (bs : List UInt8) : Memory := fun x =>
  if a ≤ x then bs.getD (x - a).toNat (m x) else m x

/-- The memory after setting `n` bytes from address `a` on to `b`. -/
def fill (m : Memory) (a : Int) (b : UInt8) (n : Nat) : Memory :=
  store m a (List.replicate n b)

/-- The unsigned number in the `w` bytes at address `a`. -/
def load (w : Nat) (m : Memory) (a : Int) : Nat := leValue (bytesAt m a w)

/-- The memory after storing the `w` low bytes of `v` at address `a`. -/
def storeNat (w : Nat) (m : Memory) (a : Int) (v : Nat) : Memory :=
  store m a (leBytes w v)

/-- The two memories have the same bytes from `a` up to `b`. -/
def AgreeOn (m' m : Memory) (a b : Int) : Prop :=
  ∀ x, a ≤ x → x < b → m' x = m x

variable {m m' : Memory} {a b x : Int} {bs : List UInt8} {n w : Nat}

theorem AgreeOn.mono {c d : Int} (h : AgreeOn m' m a b) (hlo : a ≤ c) (hhi : d ≤ b) :
    AgreeOn m' m c d := by
  intro x hx hx'
  exact h x (by omega) (by omega)

theorem AgreeOn.trans {m'' : Memory} (h' : AgreeOn m'' m' a b) (h : AgreeOn m' m a b) :
    AgreeOn m'' m a b := by
  intro x hlo hhi
  rw [h' x hlo hhi, h x hlo hhi]

theorem AgreeOn.symm (h : AgreeOn m' m a b) : AgreeOn m m' a b := by
  intro x hlo hhi
  rw [h x hlo hhi]

@[simp] theorem length_bytesAt : (bytesAt m a n).length = n := by
  simp [bytesAt]

@[simp] theorem getElem_bytesAt {i : Nat} (hi : i < (bytesAt m a n).length) :
    (bytesAt m a n)[i] = m (a + (i : Int)) := by
  simp [bytesAt]

/-- Reading depends on the bytes of the range only. -/
theorem bytesAt_congr (h : AgreeOn m' m a (a + n)) :
    bytesAt m' a n = bytesAt m a n := by
  apply List.map_congr_left
  intro i hi
  have hlt : i < n := List.mem_range.mp hi
  exact h _ (by omega) (by omega)

theorem bytesAt_add (k : Nat) :
    bytesAt m a (n + k) = bytesAt m a n ++ bytesAt m (a + n) k := by
  apply List.ext_getElem
  · simp
  · intro i hi hi'
    rcases Nat.lt_or_ge i n with hlt | hge
    · rw [List.getElem_append_left (by simpa using hlt)]
      simp
    · rw [List.getElem_append_right (by simpa using hge)]
      simp only [getElem_bytesAt, length_bytesAt]
      congr 1
      omega

theorem take_bytesAt {k : Nat} (h : k ≤ n) : (bytesAt m a n).take k = bytesAt m a k := by
  obtain ⟨l, rfl⟩ := Nat.exists_eq_add_of_le h
  rw [bytesAt_add, List.take_left' length_bytesAt]

/-! ## Stores -/

theorem store_apply_of_outside (h : x < a ∨ a + bs.length ≤ x) : store m a bs x = m x := by
  unfold store
  split
  · rw [List.getD_eq_default]
    omega
  · rfl

theorem store_apply {i : Nat} (hi : i < bs.length) : store m a bs (a + i) = bs[i] := by
  rw [store, if_pos (by omega), show (a + (i : Int) - a).toNat = i by omega,
    List.getD_eq_getElem _ _ hi]

/-- Inside of a store the memory before does not matter. -/
theorem store_inside (hlo : a ≤ x) (hhi : x < a + bs.length) : store m' a bs x = store m a bs x := by
  have hi : (x - a).toNat < bs.length := by omega
  rw [show x = a + ((x - a).toNat : Int) by omega, store_apply hi, store_apply hi]

/-- Stores to disjoint ranges commute. -/
theorem store_comm {cs : List UInt8} (h : a + bs.length ≤ b ∨ b + cs.length ≤ a) :
    store (store m a bs) b cs = store (store m b cs) a bs := by
  funext x
  by_cases hin : a ≤ x ∧ x < a + bs.length
  · rw [store_apply_of_outside (by omega), store_inside hin.1 hin.2]
  · rw [store_apply_of_outside (a := a) (by omega)]
    by_cases hin' : b ≤ x ∧ x < b + cs.length
    · exact store_inside hin'.1 hin'.2
    · rw [store_apply_of_outside (by omega), store_apply_of_outside (by omega),
        store_apply_of_outside (by omega)]

theorem store_agreeOn (h : b ≤ a ∨ a + bs.length ≤ x) :
    AgreeOn (store m a bs) m x b := by
  intro y hlo hhi
  exact store_apply_of_outside (by omega)

/-- A read away from a store sees the old bytes. -/
theorem bytesAt_store_of_disjoint (h : b + n ≤ a ∨ a + bs.length ≤ b) :
    bytesAt (store m a bs) b n = bytesAt m b n :=
  bytesAt_congr (store_agreeOn h)

/-- A read inside a store sees the stored bytes. -/
theorem bytesAt_store_inside (k : Nat) (h : k + n ≤ bs.length) :
    bytesAt (store m a bs) (a + k) n = (bs.drop k).take n := by
  apply List.ext_getElem
  · simp
    omega
  · intro i hi hi'
    have hlt : i < n := by simpa using hi
    rw [getElem_bytesAt, show a + (k : Int) + (i : Int) = a + ((k + i : Nat) : Int) by omega,
      store_apply (by omega)]
    simp

theorem bytesAt_store_self : bytesAt (store m a bs) a bs.length = bs := by
  have h : bytesAt (store m a bs) (a + (0 : Nat)) bs.length = (bs.drop 0).take bs.length :=
    bytesAt_store_inside 0 (by omega)
  simpa using h

theorem bytesAt_store_eq (h : bs.length = n) : bytesAt (store m a bs) a n = bs := by
  subst h
  exact bytesAt_store_self

theorem storeNat_apply_of_outside {v : Nat} (h : x < a ∨ a + w ≤ x) :
    storeNat w m a v x = m x :=
  store_apply_of_outside (by simpa using h)

theorem fill_apply_of_outside {c : UInt8} (h : x < a ∨ a + n ≤ x) : fill m a c n x = m x :=
  store_apply_of_outside (by simpa using h)

theorem fill_apply {c : UInt8} (hlo : a ≤ x) (hhi : x < a + n) : fill m a c n x = c := by
  have hi : (x - a).toNat < (List.replicate n c).length := by
    rw [List.length_replicate]
    omega
  have happly : store m a (List.replicate n c) (a + (x - a).toNat) = _ := store_apply hi
  rw [show a + ((x - a).toNat : Int) = x by omega] at happly
  rw [fill, happly, List.getElem_replicate]

/-! ## Numbers -/

theorem load_congr (h : AgreeOn m' m a (a + w)) : load w m' a = load w m a :=
  congrArg leValue (bytesAt_congr h)

theorem load_lt : load w m a < 256 ^ w := by
  have h := leValue_lt (bytesAt m a w)
  rwa [length_bytesAt] at h

theorem load_store_of_disjoint (h : b + w ≤ a ∨ a + bs.length ≤ b) :
    load w (store m a bs) b = load w m b :=
  congrArg leValue (bytesAt_store_of_disjoint h)

theorem load_storeNat_of_disjoint {v : ℕ} {k : Nat} (h : b + w ≤ a ∨ a + k ≤ b) :
    load w (storeNat k m a v) b = load w m b :=
  load_store_of_disjoint (by simpa using h)

theorem load_storeNat_self (v : Nat) : load w (storeNat w m a v) a = v % 256 ^ w := by
  rw [load, storeNat, bytesAt_store_eq (length_leBytes w v), leValue_leBytes]

theorem load_storeNat_of_lt {v : Nat} (h : v < 256 ^ w) : load w (storeNat w m a v) a = v := by
  rw [load_storeNat_self, Nat.mod_eq_of_lt h]

theorem load_fill_of_disjoint {c : UInt8} (h : b + w ≤ a ∨ a + n ≤ b) :
    load w (fill m a c n) b = load w m b :=
  load_store_of_disjoint (by simpa using h)

/-! ## Strings -/

/-- The string at the start of a buffer, if the buffer holds its terminator. -/
def cstr (bs : List UInt8) : Option (List UInt8) :=
  if (0 : UInt8) ∈ bs then some (bs.takeWhile (· ≠ 0)) else none

/-- A string has no zero inside. -/
def ZeroFree (s : List UInt8) : Prop := (0 : UInt8) ∉ s

instance (s : List UInt8) : Decidable (ZeroFree s) := inferInstanceAs (Decidable (_ ∉ s))

/-- The bytes of a string with its terminator. -/
def terminated (s : List UInt8) : List UInt8 := s ++ [0]

@[simp] theorem length_terminated (s : List UInt8) : (terminated s).length = s.length + 1 := by
  simp [terminated]

/-- The string `s` is what stands at address `a`. -/
def StringAt (m : Memory) (a : Int) (s : List UInt8) : Prop :=
  bytesAt m a (s.length + 1) = terminated s

instance (m : Memory) (a : Int) (s : List UInt8) : Decidable (StringAt m a s) :=
  inferInstanceAs (Decidable (_ = _))

variable {s t : List UInt8}

theorem StringAt.congr (h : StringAt m a s) (same : AgreeOn m' m a (a + (s.length + 1))) :
    StringAt m' a s := by
  have hbytes : bytesAt m' a (s.length + 1) = bytesAt m a (s.length + 1) :=
    bytesAt_congr (by push_cast; exact same)
  rw [StringAt, hbytes]
  exact h

theorem stringAt_store_self : StringAt (store m a (terminated s)) a s := by
  rw [StringAt, bytesAt_store_eq (by simp)]

theorem cstr_append (h : ZeroFree s) (rest : List UInt8) :
    cstr (terminated s ++ rest) = some s := by
  have hmem : (0 : UInt8) ∈ terminated s ++ rest := by simp [terminated]
  have hfree : ∀ b ∈ s, decide (b ≠ 0) = true := by
    intro b hb
    rw [decide_eq_true_eq]
    rintro rfl
    exact h hb
  rw [cstr, if_pos hmem, terminated, List.append_assoc, List.takeWhile_append_of_pos hfree]
  simp

theorem zero_mem_of_cstr (h : cstr bs = some s) : (0 : UInt8) ∈ bs := by
  unfold cstr at h
  split at h
  · assumption
  · cases h

/-- The string that a buffer holds stands with its terminator at the start. -/
theorem eq_append_of_cstr (h : cstr bs = some s) : ∃ rest, bs = terminated s ++ rest := by
  unfold cstr at h
  split at h
  · rename_i hmem
    cases h
    have hne : bs.dropWhile (· ≠ 0) ≠ [] := by
      intro hnil
      have hall := List.dropWhile_eq_nil_iff.mp hnil 0 hmem
      simp at hall
    obtain ⟨b, rest, hcons⟩ := List.exists_cons_of_ne_nil hne
    have hhead : (bs.dropWhile (· ≠ 0)).head? = some b := by rw [hcons, List.head?_cons]
    have hzero : b = 0 := by
      have hnot := List.head?_dropWhile_not (· ≠ (0 : UInt8)) bs
      rw [hhead] at hnot
      simpa using hnot
    refine ⟨rest, ?_⟩
    calc
      bs = bs.takeWhile (· ≠ 0) ++ bs.dropWhile (· ≠ 0) := List.takeWhile_append_dropWhile.symm
      _ = terminated (bs.takeWhile (· ≠ 0)) ++ rest := by
        rw [hcons, hzero, terminated, List.append_assoc, List.singleton_append]
  · cases h

/-- The string of a buffer stands at its address. -/
theorem stringAt_of_cstr (h : cstr (bytesAt m a n) = some s) : StringAt m a s := by
  obtain ⟨rest, hbytes⟩ := eq_append_of_cstr h
  have hlen := congrArg List.length hbytes
  rw [length_bytesAt, List.length_append, length_terminated] at hlen
  have hle : s.length + 1 ≤ n := by omega
  rw [StringAt, ← take_bytesAt hle, hbytes]
  exact List.take_left' (length_terminated s)

/-- Reading a string from a buffer that is long enough. -/
theorem StringAt.cstr_bytesAt (h : StringAt m a s) (hs : ZeroFree s) (hn : s.length < n) :
    cstr (bytesAt m a n) = some s := by
  obtain ⟨k, rfl⟩ := Nat.exists_eq_add_of_le hn
  rw [bytesAt_add, show bytesAt m a s.length.succ = terminated s from h, cstr_append hs]

/-- At most one string stands at an address. -/
theorem StringAt.unique (h : StringAt m a s) (hs : ZeroFree s) (h' : StringAt m a t)
    (ht : ZeroFree t) : s = t := by
  have hlong : cstr (bytesAt m a (s.length + t.length + 1)) = some s :=
    h.cstr_bytesAt hs (by omega)
  rw [h'.cstr_bytesAt ht (by omega)] at hlong
  exact (Option.some.inj hlong).symm

theorem StringAt.iff_eq (h : StringAt m a s) (hs : ZeroFree s) (ht : ZeroFree t) :
    StringAt m a t ↔ s = t := by
  constructor
  · intro h'
    exact h.unique hs h' ht
  · rintro rfl
    exact h

end UoftOs.Lib.ByteMemory
