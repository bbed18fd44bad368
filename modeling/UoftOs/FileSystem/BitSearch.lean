import UoftOs.FileSystem.Bitmap

/-!
# Handing out the clear bits of a bitmap

The callers of `find_next_bit` take its answer for the index of a clear bit of the
whole bitmap and pass it to `modify`. Rounds of the two are compared with the clear
indices of the bitmap they start from.
-/

namespace UoftOs.FileSystem

variable {img : Image} {a : Int} {i : Nat}

/-- The clear indices of a bitmap, in increasing order. -/
def clearIndices (img : Image) (a : Int) : List Nat :=
  (List.range 32768).filter fun i => !bitSet img a i

/-- What `find_next_bit` answers in each of `n` rounds, each followed by setting the
bit of the answer. -/
def handOut (a : Int) : Nat → Image → List Int
  | 0, _ => []
  | n + 1, img => findNextBit img a :: handOut a n (modify img a (findNextBit img a) true)

/-- `find_next_bit` and `modify` agree on the bit positions of one bitmap. -/
structure AgreeOnBits (img : Image) (a : Int) : Prop where
  /-- Minus one stands for the full bitmap. -/
  none_left : findNextBit img a = -1 ↔ Full img a
  /-- Every other answer is the least clear index. -/
  least : ∀ i, LeastClear img a i → findNextBit img a = i
  /-- The bit that is set is the one found, and it is the only one written. -/
  sets : ∀ i, LeastClear img a i → ∀ k,
    bitSet (modify img a (findNextBit img a) true) a k = (bitSet img a k || k == i)
  /-- The rounds hand out each clear index once, in increasing order, and answer
  minus one from there on. -/
  rounds : ∀ n, handOut a n img =
    ((clearIndices img a).map fun i : Nat => (i : Int)).take n ++
      List.replicate (n - (clearIndices img a).length) (-1)

/-- Each clear bit is one of the first eight. -/
def ClearInFirstByte (img : Image) (a : Int) : Prop :=
  ∀ i < 32768, bitSet img a i = false → i < 8

/-! ## The clear indices -/

theorem mem_clearIndices : i ∈ clearIndices img a ↔ i < 32768 ∧ bitSet img a i = false := by
  unfold clearIndices
  simp

/-- Taking the least index that passes a test out of the test takes it off the front
of the list of those that pass. -/
theorem filter_range_eq_cons {p q : Nat → Bool} {n : Nat} (hi : i < n) (hp : p i = true)
    (hbefore : ∀ k < i, p k = false) (hq : ∀ k, q k = (p k && k != i)) :
    (List.range n).filter p = i :: (List.range n).filter q := by
  induction n with
  | zero => omega
  | succ n ih =>
      rw [List.range_succ, List.filter_append, List.filter_append]
      rcases Nat.eq_or_lt_of_le (Nat.le_of_lt_succ hi) with rfl | hlt
      · have hnone : (List.range i).filter p = [] := by
          simpa using hbefore
        have hnone' : (List.range i).filter q = [] := by
          rw [List.filter_eq_nil_iff]
          intro k hk
          simp [hq, hbefore k (List.mem_range.mp hk)]
        rw [hnone, hnone']
        simp [hp, hq]
      · have hsame : [n].filter q = [n].filter p := by
          apply List.filter_congr
          intro k hk
          rw [List.mem_singleton] at hk
          have hne : k ≠ i := by omega
          simp [hq, hne]
        rw [ih hlt, hsame, List.cons_append]

/-- Setting the least clear bit takes its index off the front. -/
theorem LeastClear.clearIndices (h : LeastClear img a i) :
    clearIndices img a = i :: clearIndices (modify img a i true) a := by
  obtain ⟨hi, hclear, hset⟩ := h
  refine filter_range_eq_cons hi (by simp [hclear]) (fun k hk => by simp [hset k hk]) fun k => ?_
  rw [bitSet_modify]
  rcases eq_or_ne k i with rfl | hne
  · simp
  · simp [hne]

theorem Full.clearIndices (h : Full img a) : clearIndices img a = [] := by
  rw [List.eq_nil_iff_forall_not_mem]
  intro k hk
  rw [mem_clearIndices] at hk
  simpa [hk.2] using h k hk.1

/-! ## The rounds -/

/-- No round changes a full bitmap. -/
theorem Full.handOut (h : Full img a) (n : Nat) :
    handOut a n img = List.replicate n (-1) := by
  induction n with
  | zero => rfl
  | succ n ih => rw [FileSystem.handOut, h.findNextBit, modify_neg_one, ih, List.replicate_succ]

theorem ClearInFirstByte.modify (h : ClearInFirstByte img a) :
    ClearInFirstByte (modify img a i true) a := by
  intro k hk hclear
  rw [bitSet_modify] at hclear
  split at hclear
  · cases hclear
  · exact h k hk hclear

theorem ClearInFirstByte.findNextBit (h : ClearInFirstByte img a) (hleast : LeastClear img a i) :
    findNextBit img a = i := by
  have hlt : i < 8 := h i hleast.1 hleast.2.1
  rw [hleast.findNextBit, Nat.mod_eq_of_lt hlt]

/-- The induction is on the rounds; each one takes the first clear index. -/
theorem ClearInFirstByte.handOut (h : ClearInFirstByte img a) (n : Nat) :
    handOut a n img =
      ((clearIndices img a).map fun i : Nat => (i : Int)).take n ++
        List.replicate (n - (clearIndices img a).length) (-1) := by
  induction n generalizing img with
  | zero => simp [FileSystem.handOut]
  | succ n ih =>
      rcases leastClear_or_full img a with ⟨i, hleast⟩ | hfull
      · rw [FileSystem.handOut, h.findNextBit hleast, ih h.modify, hleast.clearIndices,
          List.map_cons, List.take_succ_cons, List.length_cons, Nat.add_sub_add_right,
          List.cons_append]
      · rw [hfull.handOut, hfull.clearIndices]
        simp

/-! ## Where the two agree -/

theorem ClearInFirstByte.agree (h : ClearInFirstByte img a) : AgreeOnBits img a where
  none_left := by
    refine ⟨fun hnone => ?_, fun hfull => hfull.findNextBit⟩
    rcases leastClear_or_full img a with ⟨i, hleast⟩ | hfull
    · rw [hleast.findNextBit] at hnone
      omega
    · exact hfull
  least := fun i hleast => h.findNextBit hleast
  sets := fun i hleast k => by
    rw [h.findNextBit hleast, bitSet_modify]
    rcases eq_or_ne k i with rfl | hne
    · simp
    · simp [hne]
  rounds := h.handOut

/-- A round answers a position inside of a byte. -/
theorem lt_of_mem_handOut {n : Nat} {x : Int} (h : x ∈ handOut a n img) : x < 8 := by
  induction n generalizing img with
  | zero => cases h
  | succ n ih =>
      rw [handOut, List.mem_cons] at h
      rcases h with rfl | hrest
      · exact (findNextBit_bounds img a).2
      · exact ih hrest

/-- The two agree on a bitmap exactly when the answer, a position inside of a byte,
is the index of the bit for every bit still to be handed out. -/
theorem agreeOnBits_iff (img : Image) (a : Int) : AgreeOnBits img a ↔ ClearInFirstByte img a := by
  refine ⟨fun h i hi hclear => ?_, fun h => h.agree⟩
  have hmem : i ∈ clearIndices img a := mem_clearIndices.mpr ⟨hi, hclear⟩
  have hround : (i : Int) ∈ handOut a (clearIndices img a).length img := by
    rw [h.rounds, List.take_of_length_le (by rw [List.length_map]), Nat.sub_self,
      List.replicate_zero, List.append_nil]
    exact List.mem_map_of_mem hmem
  have hlt := lt_of_mem_handOut hround
  omega

/-- The bitmap whose first byte is taken and whose other bytes are free. -/
def firstByteTaken : Image := fun x => if x = 0 then 255 else 0

theorem firstByteTaken_leastClear : LeastClear firstByteTaken 0 8 := by
  refine ⟨by decide, by decide, ?_⟩
  decide

/-- On it the answer is index 0, whose bit is set already. -/
theorem second_byte_found_as_first :
    LeastClear firstByteTaken 0 8 ∧ findNextBit firstByteTaken 0 = 0 ∧
      bitSet firstByteTaken 0 0 = true ∧ ¬ AgreeOnBits firstByteTaken 0 := by
  have hfound : findNextBit firstByteTaken 0 = 0 := firstByteTaken_leastClear.findNextBit
  refine ⟨firstByteTaken_leastClear, hfound, by decide, fun h => ?_⟩
  have hleast := h.least 8 firstByteTaken_leastClear
  rw [hfound] at hleast
  cases hleast

end UoftOs.FileSystem
