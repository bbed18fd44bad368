import Mathlib.Data.Finset.Card
import Mathlib.Data.Finset.Range
import Mathlib.Data.Nat.Bitwise
import Mathlib.Data.Nat.Find
import UoftOs.FileSystem.Types

/-!
# The inode and data bitmaps

Bit `i` of a bitmap is the mask `1 << (7 - i % 8)` of byte `i / 8`. The scan for a
free bit counts the bits it passes, and it hands the position inside of the byte
to `modify`.
-/

namespace UoftOs.FileSystem

open Lib.ByteMemory

/-- `1 << (7 - j)` as an `unsigned char`. -/
def bitMask (j : Int) : UInt8 := UInt8.ofNat (2 ^ (7 - j).toNat)

/-- Bit `i` of the bitmap at address `a`. -/
def bitSet (img : Image) (a : Int) (i : Nat) : Bool :=
  img (a + (i / 8 : Nat)) &&& bitMask (i % 8 : Nat) != 0

/-- `modify`: set the bit at `index` to `value`. -/
def modify (img : Image) (a : Int) (index : Int) (value : Bool) : Image :=
  let result := index.tdiv 8
  let remainder := index.tmod 8
  let x1 := img (a + result)
  let mask := bitMask remainder
  store img (a + result) [if value then x1 ||| mask else x1 &&& ~~~mask]

/-- The loop over the bits of one byte, with the count of the bits passed and the
position in the byte of the first clear one. -/
def scanByte (x1 : UInt8) : List Nat → Nat → Nat × Option Nat
  | [], ind => (ind, none)
  | j :: js, ind => if x1 &&& bitMask j = 0 then (ind, some j) else scanByte x1 js (ind + 1)

/-- The loop over the bytes. -/
def scanBytes (map : Nat → UInt8) : List Nat → Nat → Nat × Option Nat
  | [], ind => (ind, none)
  | byte :: rest, ind =>
      match scanByte (map byte) (List.range 8) ind with
      | (ind', some j) => (ind', some j)
      | (ind', none) => scanBytes map rest ind'

/-- The scan of a whole bitmap. -/
@[irreducible] def scanBitmap (img : Image) (a : Int) : Nat × Option Nat :=
  scanBytes (fun byte => img (a + byte)) (List.range 4096) 0

/-- `find_next_bit`. -/
def findNextBit (img : Image) (a : Int) : Int :=
  match (scanBitmap img a).2 with
  | some j => j
  | none => -1

/-- The allocation loop of `a1fs_mkdir` and `a1fs_create`: it returns the count of
the bits passed and sets the bit at the position inside of the byte. -/
def takeFreeBit (img : Image) (a : Int) : Image × Nat :=
  let scan := scanBitmap img a
  match scan.2 with
  | some j => (modify img a j true, scan.1)
  | none => (img, scan.1)

/-! ## Bits of a byte -/

theorem toNat_bitMask {j : Nat} (hj : j < 8) : (bitMask j).toNat = 2 ^ (7 - j) := by
  have hlt : 2 ^ (7 - j) < 2 ^ 8 := Nat.pow_lt_pow_right (by omega) (by omega)
  rw [bitMask, show ((7 : Int) - (j : Int)).toNat = 7 - j by omega, UInt8.toNat_ofNat']
  exact Nat.mod_eq_of_lt hlt

theorem and_bitMask_eq_zero_iff {x : UInt8} {j : Nat} (hj : j < 8) :
    x &&& bitMask j = 0 ↔ x.toNat.testBit (7 - j) = false := by
  rw [← UInt8.toNat_inj, UInt8.toNat_and, toNat_bitMask hj, Nat.and_two_pow]
  cases x.toNat.testBit (7 - j) <;> simp

theorem testBit_toNat_not (x : UInt8) {k : Nat} (hk : k < 8) :
    (~~~x).toNat.testBit k = !x.toNat.testBit k := by
  have hbit := BitVec.getLsbD_not (x := x.toBitVec) (i := k)
  simpa [BitVec.getLsbD, hk] using hbit

theorem testBit_bitMask {j k : Nat} (hj : j < 8) (hk : k < 8) :
    (bitMask j).toNat.testBit (7 - k) = decide (k = j) := by
  rw [toNat_bitMask hj, Nat.testBit_two_pow, decide_eq_decide]
  omega

variable {img : Image} {a b : Int} {bs : List UInt8} {i k : Nat}

theorem bitSet_eq_testBit :
    bitSet img a i = (img (a + (i / 8 : Nat))).toNat.testBit (7 - i % 8) := by
  have hiff := and_bitMask_eq_zero_iff (x := img (a + (i / 8 : Nat)))
    (show i % 8 < 8 from Nat.mod_lt _ (by omega))
  unfold bitSet
  cases h : (img (a + (i / 8 : Nat))).toNat.testBit (7 - i % 8) with
  | false => simpa using hiff.mpr h
  | true =>
      have hne : ¬ img (a + (i / 8 : Nat)) &&& bitMask (i % 8 : Nat) = 0 := by
        rw [hiff, h]
        simp
      simpa using hne

/-- A bit depends on its byte only. -/
theorem bitSet_congr {img' : Image} (h : img' (a + (i / 8 : Nat)) = img (a + (i / 8 : Nat))) :
    bitSet img' a i = bitSet img a i := by
  rw [bitSet, h, bitSet]

/-! ## `modify` -/

theorem modify_apply_of_ne {x : Int} (value : Bool) (h : x ≠ a + (i / 8 : Nat)) :
    modify img a i value x = img x := by
  apply store_apply_of_outside
  rw [show (i : Int).tdiv 8 = (i / 8 : Nat) from rfl, List.length_singleton]
  omega

theorem modify_agreeOn {lo hi : Int} (value : Bool)
    (h : hi ≤ a + (i / 8 : Nat) ∨ a + (i / 8 : Nat) < lo) :
    AgreeOn (modify img a i value) img lo hi := by
  intro x hlo hhi
  exact modify_apply_of_ne value (by omega)

theorem modify_apply (value : Bool) :
    modify img a i value (a + (i / 8 : Nat)) =
      if value then img (a + (i / 8 : Nat)) ||| bitMask (i % 8 : Nat)
      else img (a + (i / 8 : Nat)) &&& ~~~bitMask (i % 8 : Nat) := by
  have hbyte : modify img a i value (a + (i / 8 : Nat) + (0 : Nat)) = _ :=
    store_apply (i := 0) (by simp)
  rw [Int.natCast_zero, Int.add_zero] at hbyte
  exact hbyte

/-- `modify` writes one bit. -/
theorem bitSet_modify (value : Bool) :
    bitSet (modify img a i value) a k = if k = i then value else bitSet img a k := by
  rcases eq_or_ne (k / 8) (i / 8) with hbyte | hbyte
  · have hk : k % 8 < 8 := Nat.mod_lt _ (by omega)
    have hi : i % 8 < 8 := Nat.mod_lt _ (by omega)
    have hsame : k % 8 = i % 8 ↔ k = i := by omega
    rw [bitSet_eq_testBit, bitSet_eq_testBit, hbyte, modify_apply]
    cases value with
    | true =>
        rw [if_pos rfl, UInt8.toNat_or, Nat.testBit_or, testBit_bitMask hi hk]
        split <;> simp_all
    | false =>
        rw [if_neg (by simp), UInt8.toNat_and, Nat.testBit_and, testBit_toNat_not _ (by omega),
          testBit_bitMask hi hk]
        split <;> simp_all
  · rw [if_neg (by rintro rfl; exact hbyte rfl)]
    exact bitSet_congr (modify_apply_of_ne value (by omega))

/-- A byte is determined by its eight bits. -/
theorem byte_ext {x y : UInt8} (h : ∀ k < 8, x.toNat.testBit k = y.toNat.testBit k) : x = y := by
  rw [← UInt8.toNat_inj]
  apply Nat.eq_of_testBit_eq
  intro k
  rcases Nat.lt_or_ge k 8 with hlt | hge
  · exact h k hlt
  · have hpow : 2 ^ 8 ≤ 2 ^ k := Nat.pow_le_pow_right (by omega) hge
    rw [Nat.testBit_lt_two_pow (by have := x.toNat_lt; omega),
      Nat.testBit_lt_two_pow (by have := y.toNat_lt; omega)]

/-- Writing the value that a bit has changes nothing. -/
theorem modify_eq_self {value : Bool} (h : bitSet img a i = value) :
    modify img a i value = img := by
  funext x
  rcases eq_or_ne x (a + (i / 8 : Nat)) with rfl | hne
  · apply byte_ext
    intro k hk
    have hbyte : (8 * (i / 8) + (7 - k)) / 8 = i / 8 := by omega
    have hpos : 7 - (8 * (i / 8) + (7 - k)) % 8 = k := by omega
    have hbit : bitSet (modify img a i value) a (8 * (i / 8) + (7 - k)) =
        bitSet img a (8 * (i / 8) + (7 - k)) := by
      rw [bitSet_modify]
      split
      · rename_i heq
        rw [heq, h]
      · rfl
    rw [bitSet_eq_testBit, bitSet_eq_testBit, hbyte, hpos] at hbit
    exact hbit
  · exact modify_apply_of_ne value hne

/-! ## The scan -/

/-- Bit `j` of byte `x1` is set. -/
def byteBit (x1 : UInt8) (j : Nat) : Bool := x1 &&& bitMask j != 0

theorem bitSet_eq_byteBit : bitSet img a i = byteBit (img (a + (i / 8 : Nat))) (i % 8) := rfl

theorem scanByte_found {x1 : UInt8} {n s ind j : Nat} (hs : s ≤ j) (hj : j < s + n)
    (hset : ∀ k, s ≤ k → k < j → byteBit x1 k) (hclear : ¬ byteBit x1 j) :
    scanByte x1 (List.range' s n) ind = (ind + (j - s), some j) := by
  induction n generalizing s ind with
  | zero => omega
  | succ n ih =>
      rw [List.range'_succ, scanByte]
      rcases Nat.eq_or_lt_of_le hs with rfl | hlt
      · rw [if_pos (by simpa [byteBit] using hclear)]
        simp
      · have hone : byteBit x1 s := hset s (by omega) hlt
        rw [if_neg (by simpa [byteBit] using hone),
          ih (by omega) (by omega) (fun k hk => hset k (by omega))]
        congr 1
        omega

theorem scanByte_full {x1 : UInt8} {n s ind : Nat}
    (hset : ∀ k, s ≤ k → k < s + n → byteBit x1 k) :
    scanByte x1 (List.range' s n) ind = (ind + n, none) := by
  induction n generalizing s ind with
  | zero => rfl
  | succ n ih =>
      have hone : byteBit x1 s := hset s (by omega) (by omega)
      rw [List.range'_succ, scanByte, if_neg (by simpa [byteBit] using hone),
        ih fun k hlo hhi => hset k (by omega) (by omega)]
      congr 1
      omega

/-- The scan stops at the least clear bit and keeps its position in the byte. -/
theorem scanBytes_found {map : Nat → UInt8} {n s : Nat} (hs : 8 * s ≤ i) (hi : i < 8 * (s + n))
    (hset : ∀ k, 8 * s ≤ k → k < i → byteBit (map (k / 8)) (k % 8))
    (hclear : ¬ byteBit (map (i / 8)) (i % 8)) :
    scanBytes map (List.range' s n) (8 * s) = (i, some (i % 8)) := by
  induction n generalizing s with
  | zero => omega
  | succ n ih =>
      rw [List.range'_succ, scanBytes, List.range_eq_range']
      rcases Nat.lt_or_ge i (8 * s + 8) with hlt | hge
      · have hbyte : i / 8 = s := by omega
        rw [hbyte] at hclear
        have hbefore : ∀ k, 0 ≤ k → k < i % 8 → byteBit (map s) k := by
          intro k _ hk
          have hbit := hset (8 * s + k) (by omega) (by omega)
          rwa [show (8 * s + k) / 8 = s by omega, show (8 * s + k) % 8 = k by omega] at hbit
        rw [scanByte_found (Nat.zero_le _) (by omega) hbefore hclear]
        simp only [Prod.mk.injEq, and_true]
        omega
      · have hfull : ∀ k, 0 ≤ k → k < 0 + 8 → byteBit (map s) k := by
          intro k _ hk
          have hbit := hset (8 * s + k) (by omega) (by omega)
          rwa [show (8 * s + k) / 8 = s by omega, show (8 * s + k) % 8 = k by omega] at hbit
        rw [scanByte_full hfull]
        exact ih (s := s + 1) (by omega) (by omega) fun k hk => hset k (by omega)

theorem scanBytes_range {map : Nat → UInt8} {n : Nat} (hi : i < 8 * n)
    (hset : ∀ k < i, byteBit (map (k / 8)) (k % 8)) (hclear : ¬ byteBit (map (i / 8)) (i % 8)) :
    scanBytes map (List.range n) 0 = (i, some (i % 8)) := by
  rw [List.range_eq_range']
  exact scanBytes_found (s := 0) (by omega) (by omega) (fun k _ hk => hset k hk) hclear

/-- The least clear bit of a bitmap, if it has one among its 32768 bits. -/
def LeastClear (img : Image) (a : Int) (i : Nat) : Prop :=
  i < 32768 ∧ bitSet img a i = false ∧ ∀ k < i, bitSet img a k = true

/-- One of the first eight bits of the bitmap is clear. -/
def RoomInFirstByte (img : Image) (a : Int) : Prop := ∃ k < 8, bitSet img a k = false

theorem roomInFirstByte_congr {img' : Image} (h : ∀ k < 8, bitSet img' a k = bitSet img a k) :
    RoomInFirstByte img' a ↔ RoomInFirstByte img a := by
  unfold RoomInFirstByte
  refine exists_congr fun k => and_congr_right fun hk => ?_
  rw [h k hk]

/-- No bit among the 32768 that the scan looks at is clear. -/
def Full (img : Image) (a : Int) : Prop := ∀ k < 32768, bitSet img a k = true

theorem exists_leastClear {n : Nat} (hn : n ≤ 32768) (h : ∃ i < n, bitSet img a i = false) :
    ∃ i < n, LeastClear img a i := by
  have hex : ∃ i, bitSet img a i = false := h.imp fun _ hi => hi.2
  obtain ⟨j, hj, hclear⟩ := h
  have hmin : Nat.find hex ≤ j := Nat.find_min' hex hclear
  refine ⟨Nat.find hex, by omega, by omega, Nat.find_spec hex, fun k hk => ?_⟩
  simpa using Nat.find_min hex hk

theorem LeastClear.congr {img' : Image} {a' : Int} (h : LeastClear img a i)
    (hsame : ∀ k ≤ i, bitSet img' a' k = bitSet img a k) : LeastClear img' a' i :=
  ⟨h.1, (hsame i (le_refl i)).trans h.2.1, fun k hk => (hsame k hk.le).trans (h.2.2 k hk)⟩

theorem LeastClear.scan (h : LeastClear img a i) : scanBitmap img a = (i, some (i % 8)) := by
  obtain ⟨hlt, hclear, hset⟩ := h
  have hbit : ¬ byteBit (img (a + (i / 8 : Nat))) (i % 8) := by
    rw [← bitSet_eq_byteBit, hclear]
    exact Bool.false_ne_true
  unfold scanBitmap
  exact scanBytes_range (by omega) hset hbit

theorem LeastClear.takeFreeBit (h : LeastClear img a i) :
    takeFreeBit img a = (modify img a (i % 8 : Nat) true, i) := by
  simp only [FileSystem.takeFreeBit, h.scan]

theorem LeastClear.findNextBit (h : LeastClear img a i) :
    findNextBit img a = (i % 8 : Nat) := by
  simp only [FileSystem.findNextBit, h.scan]

theorem leastClear_or_full (img : Image) (a : Int) : (∃ i, LeastClear img a i) ∨ Full img a := by
  by_cases h : ∃ i < 32768, bitSet img a i = false
  · obtain ⟨i, _, hi⟩ := exists_leastClear le_rfl h
    exact .inl ⟨i, hi⟩
  · refine .inr fun k hk => ?_
    by_contra hclear
    exact h ⟨k, hk, by simpa using hclear⟩

theorem scanBytes_full {map : Nat → UInt8} {n s : Nat}
    (hset : ∀ k, 8 * s ≤ k → k < 8 * (s + n) → byteBit (map (k / 8)) (k % 8)) :
    scanBytes map (List.range' s n) (8 * s) = (8 * (s + n), none) := by
  induction n generalizing s with
  | zero => rfl
  | succ n ih =>
      have hfull : ∀ k, 0 ≤ k → k < 0 + 8 → byteBit (map s) k := by
        intro k _ hk
        have hbit := hset (8 * s + k) (by omega) (by omega)
        rwa [show (8 * s + k) / 8 = s by omega, show (8 * s + k) % 8 = k by omega] at hbit
      rw [List.range'_succ, scanBytes, List.range_eq_range', scanByte_full hfull]
      simp only
      rw [show 8 * s + 8 = 8 * (s + 1) by omega,
        ih fun k hlo hhi => hset k (by omega) (by omega)]
      congr 2
      omega

theorem Full.scan (h : Full img a) : scanBitmap img a = (32768, none) := by
  unfold scanBitmap
  rw [List.range_eq_range']
  exact scanBytes_full (s := 0) fun k _ hk => h k (by omega)

theorem Full.takeFreeBit (h : Full img a) : takeFreeBit img a = (img, 32768) := by
  simp only [FileSystem.takeFreeBit, h.scan]

theorem Full.findNextBit (h : Full img a) : findNextBit img a = -1 := by
  simp only [FileSystem.findNextBit, h.scan]

/-- The allocation loop sets a bit only when the least clear one is in the first
byte; it returns the index of that bit, or the number of bits. -/
theorem takeFreeBit_cases (img : Image) (a : Int) :
    (∃ k < 8, LeastClear img a k ∧ takeFreeBit img a = (modify img a k true, k)) ∨
      ∃ k, 8 ≤ k ∧ k ≤ 32768 ∧ (∀ j < k, bitSet img a j = true) ∧
        takeFreeBit img a = (img, k) := by
  rcases leastClear_or_full img a with ⟨k, hk⟩ | hfull
  · rcases Nat.lt_or_ge k 8 with hlt | hge
    · refine .inl ⟨k, hlt, hk, ?_⟩
      rw [hk.takeFreeBit, Nat.mod_eq_of_lt hlt]
    · refine .inr ⟨k, hge, hk.1.le, hk.2.2, ?_⟩
      rw [hk.takeFreeBit, modify_eq_self (hk.2.2 _ (by omega))]
  · exact .inr ⟨32768, by omega, le_rfl, hfull, hfull.takeFreeBit⟩

theorem LeastClear.unique (h : LeastClear img a i) (h' : LeastClear img a k) : i = k := by
  have hlt : ¬ i < k := fun hlt => by simpa [h.2.1] using h'.2.2 i hlt
  have hgt : ¬ k < i := fun hgt => by simpa [h'.2.1] using h.2.2 k hgt
  omega

theorem LeastClear.room (h : LeastClear img a i) : i < 8 ↔ RoomInFirstByte img a := by
  constructor
  · intro hlt
    exact ⟨i, hlt, h.2.1⟩
  · rintro ⟨k, hk, hclear⟩
    have hle : ¬ k < i := fun hlt => by simpa [hclear] using h.2.2 k hlt
    omega

/-- Index -1 addresses no bit. -/
theorem modify_neg_one (value : Bool) : modify img a (-1) value = img := by
  have hresult : (-1 : Int).tdiv 8 = 0 := by decide
  have hmask : bitMask ((-1 : Int).tmod 8) = 0 := by decide
  funext x
  simp only [modify, hresult, hmask, Int.add_zero]
  rcases eq_or_ne x a with rfl | hne
  · cases value <;> simp [store]
  · exact store_apply_of_outside (by rw [List.length_singleton]; omega)

theorem findNextBit_bounds (img : Image) (a : Int) : -1 ≤ findNextBit img a ∧ findNextBit img a < 8 := by
  rcases leastClear_or_full img a with ⟨k, hk⟩ | hfull
  · rw [hk.findNextBit]
    omega
  · rw [hfull.findNextBit]
    omega

/-- Setting the bit that `find_next_bit` returns is what the allocation loop does. -/
theorem modify_findNextBit (img : Image) (a : Int) :
    modify img a (findNextBit img a) true = (takeFreeBit img a).1 := by
  rcases leastClear_or_full img a with ⟨k, hk⟩ | hfull
  · rw [hk.findNextBit, hk.takeFreeBit]
  · rw [hfull.findNextBit, hfull.takeFreeBit, modify_neg_one]

section Taken

variable {img₁ : Image} (h : takeFreeBit img a = (img₁, k))
include h

theorem takeFreeBit_room : k < 8 ↔ RoomInFirstByte img a := by
  rcases takeFreeBit_cases img a with ⟨i, hi, hleast, htake⟩ | ⟨i, hi, _, hset, htake⟩
  · rw [htake] at h
    cases h
    exact ⟨fun _ => ⟨k, hi, hleast.2.1⟩, fun _ => hi⟩
  · rw [htake] at h
    cases h
    constructor
    · intro hlt
      omega
    · rintro ⟨j, hj, hclear⟩
      simpa [hclear] using hset j (by omega)

theorem takeFreeBit_least (hk : k < 8) : LeastClear img a k ∧ img₁ = modify img a k true := by
  rcases takeFreeBit_cases img a with ⟨i, hi, hleast, htake⟩ | ⟨i, hi, _, _, htake⟩
  · rw [htake] at h
    cases h
    exact ⟨hleast, rfl⟩
  · rw [htake] at h
    cases h
    omega

theorem takeFreeBit_eq_self (hk : 8 ≤ k) : img₁ = img := by
  rcases takeFreeBit_cases img a with ⟨i, hi, _, htake⟩ | ⟨i, _, _, _, htake⟩
  · rw [htake] at h
    cases h
    omega
  · rw [htake] at h
    cases h
    rfl

/-- All bits before the returned index are set. -/
theorem takeFreeBit_before : k ≤ 32768 ∧ ∀ j < k, bitSet img a j = true := by
  rcases takeFreeBit_cases img a with ⟨i, _, hleast, htake⟩ | ⟨i, _, hle, hset, htake⟩
  · rw [htake] at h
    cases h
    exact ⟨hleast.1.le, hleast.2.2⟩
  · rw [htake] at h
    cases h
    exact ⟨hle, hset⟩

/-- The loop writes the first byte of the bitmap only. -/
theorem takeFreeBit_apply {x : Int} (hx : x ≠ a) : img₁ x = img x := by
  rcases Nat.lt_or_ge k 8 with hlt | hge
  · obtain ⟨_, rfl⟩ := takeFreeBit_least h hlt
    exact modify_apply_of_ne true (by omega)
  · rw [takeFreeBit_eq_self h hge]

end Taken

/-! ## Counting -/

/-- The number of set bits among the first `n`. -/
def setBits (img : Image) (a : Int) (n : Nat) : Nat :=
  ((Finset.range n).filter fun i => bitSet img a i).card

variable {img' : Image} {n : Nat}

theorem setBits_congr (h : ∀ i < n, bitSet img' a i = bitSet img a i) :
    setBits img' a n = setBits img a n := by
  unfold setBits
  congr 1
  apply Finset.filter_congr
  intro i hi
  rw [h i (Finset.mem_range.mp hi)]

theorem setBits_modify_true (hi : i < n) (hclear : bitSet img a i = false) :
    setBits (modify img a i true) a n = setBits img a n + 1 := by
  have hnew : i ∉ (Finset.range n).filter fun k => bitSet img a k := by
    simp [hclear]
  unfold setBits
  rw [← Finset.card_insert_of_notMem hnew]
  congr 1
  ext k
  simp only [Finset.mem_filter, Finset.mem_range, Finset.mem_insert, bitSet_modify]
  split <;> simp_all

theorem setBits_modify_false (hi : i < n) (hset : bitSet img a i = true) :
    setBits (modify img a i false) a n + 1 = setBits img a n := by
  have hold : i ∈ (Finset.range n).filter fun k => bitSet img a k := by
    simp [hset, hi]
  unfold setBits
  rw [← Finset.card_erase_add_one hold]
  congr 2
  ext k
  simp only [Finset.mem_filter, Finset.mem_range, Finset.mem_erase, bitSet_modify]
  split <;> simp_all

theorem setBits_mono (h : ∀ i < n, bitSet img a i = true → bitSet img' a i = true) :
    setBits img a n ≤ setBits img' a n := by
  apply Finset.card_le_card
  intro i hi
  simp only [Finset.mem_filter, Finset.mem_range] at hi ⊢
  exact ⟨hi.1, h i hi.1 hi.2⟩

theorem setBits_lt (hi : i < n) (hclear : bitSet img a i = false)
    (hset : bitSet img' a i = true)
    (h : ∀ i < n, bitSet img a i = true → bitSet img' a i = true) :
    setBits img a n < setBits img' a n := by
  apply Finset.card_lt_card
  rw [Finset.ssubset_iff_of_subset]
  · exact ⟨i, by simp [hi, hset], by simp [hclear]⟩
  · intro k hk
    simp only [Finset.mem_filter, Finset.mem_range] at hk ⊢
    exact ⟨hk.1, h k hk.1 hk.2⟩

end UoftOs.FileSystem
