import UoftOs.FileSystem.Contents

/-!
# What update_extent appends

The blocks of an inode are the blocks of its extents in order. `update_extent` lets the
first extent that ends at the new block grow, wherever it stands, and otherwise stores a
new extent and sets the number of extents to 1. It appends the block exactly when the
inode has no extents or the block stands right behind its last extent.
-/

namespace UoftOs.FileSystem

open Lib.ByteMemory Lib.Frames

/-- The numbers of the blocks of one extent. -/
def extentRange (img : Image) (e : Int) (k : Nat) : List Nat :=
  List.range' (extentStart img e k) (extentLength img e k)

/-- The blocks of an inode: its extents in order, each expanded. -/
def flattened (img : Image) (i : Int) : List Nat :=
  (List.range (extentCount img (inodeAddr img i)).toNat).flatMap (extentRange img (extentAddr img i))

/-- The inode has its number, at most 511 extents, none empty, and its blocks are distinct
`int` values. -/
structure ExtentList (img : Image) (i : Int) : Prop where
  number : inoNumber img (inodeAddr img i) = i
  count_nonneg : 0 ≤ extentCount img (inodeAddr img i)
  count_le : extentCount img (inodeAddr img i) ≤ 511
  length_pos : ∀ k : Nat, (k : Int) < extentCount img (inodeAddr img i) →
    0 < extentLength img (extentAddr img i) k
  end_lt : ∀ k : Nat, (k : Int) < extentCount img (inodeAddr img i) →
    extentStart img (extentAddr img i) k + extentLength img (extentAddr img i) k < 2147483648
  nodup : (flattened img i).Nodup

/-- The block is appended, and the other extent blocks keep their bytes. -/
structure Appends (img : Image) (i : Int) (index : Nat) : Prop where
  blocks : flattened (updateExtent img i index) i = flattened img i ++ [index]
  others : ∀ j < inodesCount img, (j : Int) ≠ i →
    AgreeOn (updateExtent img i index) img (extentAddr img j) (extentAddr img j + 4096)

/-- The inode has no extents, or the block stands right behind the last one. -/
def EndsBefore (img : Image) (i : Int) (index : Nat) : Prop :=
  extentCount img (inodeAddr img i) = 0 ∨
    ∃ last : Nat, (last : Int) + 1 = extentCount img (inodeAddr img i) ∧
      extentStart img (extentAddr img i) last + extentLength img (extentAddr img i) last = index

variable {L : Layout} {img img' : Image} {i k m n : Nat} {index : Nat} {f g : Nat → List Nat} {e : Int}

/-! ## Lists of ranges -/

/-- The lists before, at and behind a place. -/
theorem flatMap_range_split (f : Nat → List Nat) (k m : Nat) :
    (List.range (k + 1 + m)).flatMap f =
      (List.range k).flatMap f ++ (f k ++ (List.range m).flatMap fun j => f (k + 1 + j)) := by
  rw [List.range_add, List.flatMap_append, List.range_succ, List.flatMap_append,
    List.flatMap_singleton, List.append_assoc, List.flatMap_map]

/-- A block added at one place stands at the end exactly when nothing stands behind it. -/
theorem flatMap_range_grow (hk : g k = f k ++ [index]) (hsame : ∀ j ≠ k, g j = f j)
    (hnew : index ∉ (List.range (k + 1 + m)).flatMap f) (hpos : ∀ j < k + 1 + m, f j ≠ []) :
    (List.range (k + 1 + m)).flatMap g = (List.range (k + 1 + m)).flatMap f ++ [index] ↔ m = 0 := by
  have hbefore : (List.range k).flatMap g = (List.range k).flatMap f := by
    rw [List.flatMap_def, List.flatMap_def,
      List.map_congr_left fun j hj => hsame j (List.mem_range.mp hj).ne]
  have hbehind : ((List.range m).flatMap fun j => g (k + 1 + j)) =
      (List.range m).flatMap fun j => f (k + 1 + j) := by
    rw [List.flatMap_def, List.flatMap_def,
      List.map_congr_left fun j _ => hsame (k + 1 + j) (by omega)]
  rw [flatMap_range_split, List.mem_append, not_or, List.mem_append, not_or] at hnew
  rw [flatMap_range_split, flatMap_range_split, hbefore, hbehind, hk, List.append_assoc,
    List.append_assoc, List.append_assoc, List.append_cancel_left_eq, List.append_cancel_left_eq,
    List.singleton_append]
  constructor
  · intro heq
    by_contra hm
    obtain ⟨m, rfl⟩ := Nat.exists_eq_succ_of_ne_zero hm
    rw [List.range_succ_eq_map, List.flatMap_cons] at heq hnew
    cases hfirst : f (k + 1 + 0) with
    | nil => exact hpos (k + 1 + 0) (by omega) hfirst
    | cons x xs =>
        rw [hfirst] at heq hnew
        have hx : index = x := (List.cons.inj heq).1
        exact hnew.2.2 (hx ▸ List.mem_append_left _ List.mem_cons_self)
  · rintro rfl
    rfl

/-- Two lists of one flattened list without repetitions share no element. -/
theorem ne_of_nodup_flatMap (hnodup : ((List.range n).flatMap f).Nodup) {j x : Nat} (hj : j < k)
    (hk : k < n) (hx : x ∈ f j) : x ∉ f k := by
  obtain ⟨m, rfl⟩ := Nat.exists_eq_add_of_lt hj
  obtain ⟨d, rfl⟩ := Nat.exists_eq_add_of_lt hk
  rw [show j + m + 1 + d + 1 = j + 1 + (m + d + 1) by omega, flatMap_range_split,
    List.nodup_append] at hnodup
  have hapart := (List.nodup_append.mp hnodup.2.1).2.2 x hx
  intro hmem
  refine hapart x (List.mem_flatMap.mpr ⟨m, List.mem_range.mpr (by omega), ?_⟩) rfl
  rwa [show j + 1 + m = j + m + 1 by omega]

/-! ## The two cases of `update_extent` -/

theorem mem_extentRange {x : Nat} : x ∈ extentRange img e k ↔
    extentStart img e k ≤ x ∧ x < extentStart img e k + extentLength img e k := by
  rw [extentRange, List.mem_range'_1]

theorem extentRange_ne_nil (h : 0 < extentLength img e k) : extentRange img e k ≠ [] := by
  rw [extentRange, ne_eq, List.range'_eq_nil_iff]
  omega

/-- An extent with one block more. -/
theorem extentRange_grown (hk : extentLength img e k + 1 < 4294967296) :
    extentRange (setExtentLength img e k (extentLength img e k + 1)) e k =
      extentRange img e k ++ [extentStart img e k + extentLength img e k] := by
  have hlength : extentLength (setExtentLength img e k (extentLength img e k + 1)) e k =
      extentLength img e k + 1 := by
    have hvalue := uint32_of_bounds (x := (extentLength img e k : Int) + 1) (by omega) (by omega)
    rw [extentLength, setExtentLength, u32_set32_self]
    omega
  have hstart : extentStart (setExtentLength img e k (extentLength img e k + 1)) e k =
      extentStart img e k := u32_set32_of_disjoint (by omega)
  rw [extentRange, hlength, hstart, List.range'_concat, Nat.one_mul, extentRange]

theorem extentRange_other {v : Int} {j : Nat} (hne : j ≠ k) :
    extentRange (setExtentLength img e k v) e j = extentRange img e j := by
  have hlength : extentLength (setExtentLength img e k v) e j = extentLength img e j :=
    u32_set32_of_disjoint (by omega)
  have hstart : extentStart (setExtentLength img e k v) e j = extentStart img e j :=
    u32_set32_of_disjoint (by omega)
  rw [extentRange, hlength, hstart, extentRange]

/-- The test of the loop, for an extent within the `int` range. -/
theorem adjacent_iff
    (hlt : extentStart img e k + extentLength img e k < 2147483648) :
    int32 (int32 (extentStart img e k) + int32 (extentLength img e k)) = (index : Int) ↔
      extentStart img e k + extentLength img e k = index := by
  have hstart : int32 (extentStart img e k : Int) = extentStart img e k :=
    int32_of_bounds (by omega) (by omega)
  have hlength : int32 (extentLength img e k : Int) = extentLength img e k :=
    int32_of_bounds (by omega) (by omega)
  rw [hstart, hlength, int32_of_bounds (by omega) (by omega)]
  omega

/-- The extent blocks of the other inodes keep their bytes. -/
theorem updateExtent_others (hof : L.Of img) (hi : i < L.inodes)
    (hnumber : inoNumber img (L.recordAt i) = i) (hlo : 0 ≤ extentCount img (L.recordAt i))
    (hhi : extentCount img (L.recordAt i) ≤ 511) {j : Nat} (hne : j ≠ i) :
    AgreeOn (updateExtent img i index) img (L.extentAt j) (L.extentAt j + 4096) := by
  have hrecords := L.records
  have hrecord : L.recordAt i = 4096 * L.inodeTable + 64 * i := rfl
  have hextent : L.extentAt i = 4096 * (L.extents + i) := rfl
  have hother : L.extentAt j = 4096 * (L.extents + j) := rfl
  rcases updateExtent_cases hof hi hnumber hlo index with ⟨k, hk, heq⟩ | ⟨_, heq⟩
  · have hlt := adjacentExtent_lt hk
    rw [heq]
    exact store_agreeOn (by rw [length_leBytes]; omega)
  · rw [heq]
    refine AgreeOn.trans (store_agreeOn (by rw [length_leBytes]; omega)) (AgreeOn.trans
      (store_agreeOn (by rw [length_leBytes]; omega)) (store_agreeOn (by rw [length_leBytes]; omega)))

/-- Without an adjacent extent the inode has one extent afterwards. -/
theorem flattened_appended (hof : L.Of img) (hi : i < L.inodes)
    (hnumber : inoNumber img (L.recordAt i) = i) (hcount : extentCount img (L.recordAt i) = (n : Int))
    (hle : n ≤ 511) (hindex : index < 2147483648)
    (hnone : adjacentExtent img (L.extentAt i) n index = none) :
    flattened (updateExtent img i index) i =
      if n = 0 then [index] else extentRange img (L.extentAt i) 0 := by
  have hrecords := L.records
  have hrecord : L.recordAt i = 4096 * L.inodeTable + 64 * i := rfl
  have hextent : L.extentAt i = 4096 * (L.extents + i) := rfl
  have hlo : 0 ≤ extentCount img (L.recordAt i) := by omega
  have hof' := (updateExtent_effect hof hi hnumber ⟨hlo, by omega⟩ index).1.of hof
  rcases updateExtent_cases hof hi hnumber hlo index with ⟨k, hk, _⟩ | ⟨_, heq⟩
  · rw [hcount, hnone] at hk
    cases hk
  · rw [hcount] at heq
    have hone : extentCount (updateExtent img i index) (L.recordAt i) = 1 := by
      rw [heq, extentCount, setExtentCount, i32, u32_set32_self, int32_uint32]
      rfl
    rw [flattened, hof'.inodeAddr hi.le, hof'.extentAddr hi.le, hone, Int.toNat_one, List.range_one,
      List.flatMap_singleton]
    by_cases hn : n = 0
    · subst hn
      have hstart : extentStart (updateExtent img i index) (L.extentAt i) (0 : Nat) = index := by
        have hvalue := uint32_of_bounds (x := (index : Int)) (by omega) (by omega)
        rw [heq]
        simp (disch := omega) only [extentStart, setExtentCount, setExtentLength, setExtentStart,
          u32_set32_of_disjoint, u32_set32_self]
        omega
      have hlength : extentLength (updateExtent img i index) (L.extentAt i) (0 : Nat) = 1 := by
        rw [heq]
        simp (disch := omega) only [extentLength, setExtentCount, setExtentLength,
          u32_set32_of_disjoint, u32_set32_self]
        rfl
      rw [if_pos rfl, extentRange, hstart, hlength, List.range'_one]
    · have hstart : extentStart (updateExtent img i index) (L.extentAt i) (0 : Nat) =
          extentStart img (L.extentAt i) (0 : Nat) := by
        rw [heq]
        simp (disch := omega) only [extentStart, setExtentCount, setExtentLength, setExtentStart,
          u32_set32_of_disjoint]
      have hlength : extentLength (updateExtent img i index) (L.extentAt i) (0 : Nat) =
          extentLength img (L.extentAt i) (0 : Nat) := by
        rw [heq]
        simp (disch := omega) only [extentLength, setExtentCount, setExtentLength, setExtentStart,
          u32_set32_of_disjoint]
      rw [if_neg hn, extentRange, hstart, hlength, extentRange]

/-- With an adjacent extent this extent has one block more. -/
theorem flattened_grown (hof : L.Of img) (hi : i < L.inodes)
    (hnumber : inoNumber img (L.recordAt i) = i) (hcount : extentCount img (L.recordAt i) = (n : Int))
    (hle : n ≤ 511) (hadjacent : adjacentExtent img (L.extentAt i) n index = some k) :
    flattened (updateExtent img i index) i = (List.range n).flatMap
      (extentRange (setExtentLength img (L.extentAt i) k (extentLength img (L.extentAt i) k + 1))
        (L.extentAt i)) := by
  have hrecords := L.records
  have hrecord : L.recordAt i = 4096 * L.inodeTable + 64 * i := rfl
  have hextent : L.extentAt i = 4096 * (L.extents + i) := rfl
  have hlo : 0 ≤ extentCount img (L.recordAt i) := by omega
  have hof' := (updateExtent_effect hof hi hnumber ⟨hlo, by omega⟩ index).1.of hof
  rcases updateExtent_cases hof hi hnumber hlo index with ⟨k', hk', heq⟩ | ⟨hnone, _⟩
  · rw [hcount, hadjacent] at hk'
    cases hk'
    have hsame : extentCount (updateExtent img i index) (L.recordAt i) = n := by
      rw [heq, ← hcount]
      exact i32_congr (store_agreeOn (by omega))
    rw [flattened, hof'.inodeAddr hi.le, hof'.extentAddr hi.le, hsame, Int.toNat_natCast, heq]
  · rw [hcount, hadjacent] at hnone
    cases hnone

/-! ## When the block is appended -/

/-- `update_extent` appends the block exactly when the inode has no extents or the block
stands right behind the last one. -/
theorem updateExtent_appends_iff (hof : L.Of img) (hi : i < L.inodes) (h : ExtentList img i)
    (hnew : index ∉ flattened img i) (hindex : index < 2147483648) :
    Appends img i index ↔ EndsBefore img i index := by
  obtain ⟨hnumber, hlo, hhi, hpos, hend, hnodup⟩ := h
  have haddr := hof.inodeAddr hi.le
  have hextent := hof.extentAddr hi.le
  obtain ⟨n, hn⟩ := Int.eq_ofNat_of_zero_le hlo
  have hold : flattened img i = (List.range n).flatMap (extentRange img (L.extentAt i)) := by
    rw [flattened, hn, hextent, Int.toNat_natCast]
  have hothers : ∀ j < inodesCount img, (j : Int) ≠ i →
      AgreeOn (updateExtent img i index) img (extentAddr img j) (extentAddr img j + 4096) := by
    intro j hj hne
    rw [hof.inodesCount] at hj
    rw [hof.extentAddr hj.le]
    rw [haddr] at hnumber hlo hhi
    exact updateExtent_others hof hi hnumber hlo hhi (by omega)
  have happends : Appends img i index ↔
      flattened (updateExtent img i index) i = flattened img i ++ [index] :=
    ⟨fun h => h.blocks, fun h => ⟨h, hothers⟩⟩
  rw [happends, EndsBefore, hn, hextent]
  simp only [hn, hextent, Int.ofNat_lt] at hpos hend
  rw [hold] at hnew hnodup
  rw [haddr] at hnumber hn hhi
  cases hadjacent : adjacentExtent img (L.extentAt i) n index with
  | none =>
      rw [flattened_appended hof hi hnumber hn (by omega) hindex hadjacent, hold]
      by_cases hzero : n = 0
      · subst hzero
        exact iff_of_true rfl (.inl rfl)
      · rw [if_neg hzero]
        refine iff_of_false (fun heq => hnew ?_) ?_
        · have hmem : index ∈ extentRange img (L.extentAt i) 0 := by
            rw [heq]
            exact List.mem_append_right _ (List.mem_singleton_self index)
          exact List.mem_flatMap.mpr ⟨0, List.mem_range.mpr (by omega), hmem⟩
        · rintro (hcount | ⟨last, hlast, hbehind⟩)
          · omega
          · rw [adjacentExtent, Int.toNat_natCast, List.find?_range_eq_none] at hadjacent
            have hfalse := hadjacent last (by omega)
            rw [Bool.not_eq_true', decide_eq_false_iff_not, adjacent_iff (hend last (by omega))] at hfalse
            exact hfalse hbehind
  | some k =>
      rw [flattened_grown hof hi hnumber hn (by omega) hadjacent, hold]
      rw [adjacentExtent, Int.toNat_natCast, List.find?_range_eq_some] at hadjacent
      obtain ⟨hk, hmem, _⟩ := hadjacent
      have hlt := List.mem_range.mp hmem
      rw [decide_eq_true_iff, adjacent_iff (hend k hlt)] at hk
      have hshort : extentLength img (L.extentAt i) k + 1 < 4294967296 := by
        have := hend k hlt
        omega
      have hgrown := extentRange_grown hshort
      rw [hk] at hgrown
      obtain ⟨m, rfl⟩ : ∃ m, n = k + 1 + m := ⟨n - (k + 1), by omega⟩
      rw [flatMap_range_grow hgrown (fun j hj => extentRange_other hj) hnew
        fun j hj => extentRange_ne_nil (hpos j hj)]
      constructor
      · rintro rfl
        exact .inr ⟨k, by omega, hk⟩
      · rintro (hcount | ⟨last, hlast, hbehind⟩)
        · omega
        · by_contra hm
          have hbefore := hpos k hlt
          have hbefore' := hpos last (by omega)
          refine ne_of_nodup_flatMap hnodup (show k < last by omega) (by omega) (x := index - 1)
            (mem_extentRange.mpr (by omega)) (mem_extentRange.mpr (by omega))

/-! ## An inode with one extent -/

/-- Two inodes and eight data blocks. -/
def twoInodeLayout : Layout where
  inodeMap := 1
  dataMap := 2
  inodeTable := 4
  extents := 5
  data := 7
  inodes := 2
  blocks := 8
  inodeMap_pos := by decide
  inodeMap_lt := by decide
  dataMap_lt := by decide
  inodes_pos := by decide
  inodeBits := by decide
  records := by decide
  extentBlocks := by decide
  data_lt := by decide

/-- Inode 1 has the extent of the blocks 1 and 2. -/
def oneExtentImage : Image :=
  let img : Image := fun _ => 0
  let img := set32 (set32 (set32 (set32 img 16 1) 20 2) 24 4) 28 5
  let img := set32 (set32 (set32 img 32 7) 36 2) 40 8
  let img := setExtentCount (setInoNumber img 16448 1) 16448 1
  setExtentLength (setExtentStart img 24576 0 1) 24576 0 2

theorem oneExtentImage_of : twoInodeLayout.Of oneExtentImage := by
  constructor <;> decide

theorem oneExtentImage_count :
    extentCount oneExtentImage (inodeAddr oneExtentImage (1 : Nat)) = 1 := by
  decide

theorem oneExtentImage_extent :
    extentStart oneExtentImage (extentAddr oneExtentImage (1 : Nat)) (0 : Nat) = 1 ∧
      extentLength oneExtentImage (extentAddr oneExtentImage (1 : Nat)) (0 : Nat) = 2 := by
  decide

theorem oneExtentImage_flattened : flattened oneExtentImage (1 : Nat) = [1, 2] := by
  decide

theorem oneExtentImage_list : ExtentList oneExtentImage (1 : Nat) := by
  obtain ⟨hstart, hlength⟩ := oneExtentImage_extent
  have hfirst : ∀ k : Nat, (k : Int) < 1 → k = 0 := fun k hk => by omega
  constructor
  · decide
  · rw [oneExtentImage_count]
    decide
  · rw [oneExtentImage_count]
    decide
  · intro k hk
    rw [oneExtentImage_count] at hk
    rw [hfirst k hk, hlength]
    decide
  · intro k hk
    rw [oneExtentImage_count] at hk
    rw [hfirst k hk, hstart, hlength]
    decide
  · rw [oneExtentImage_flattened]
    decide

/-- Block 3 is appended. -/
theorem updateExtent_appends_iff_three : Appends oneExtentImage (1 : Nat) 3 := by
  obtain ⟨hstart, hlength⟩ := oneExtentImage_extent
  refine (updateExtent_appends_iff oneExtentImage_of (by decide) oneExtentImage_list ?_
    (by decide)).mpr (.inr ⟨0, ?_, ?_⟩)
  · rw [oneExtentImage_flattened]
    decide
  · rw [oneExtentImage_count]
    decide
  · rw [hstart, hlength]

/-- Block 5 gets an extent of its own, which the count of 1 leaves out. -/
theorem updateExtent_loses_block :
    ¬ ∀ (L : Layout) (img : Image) (i index : Nat), L.Of img → i < L.inodes → ExtentList img i →
      index ∉ flattened img i → index < 2147483648 → Appends img i index := by
  intro hclaim
  have hnew : 5 ∉ flattened oneExtentImage (1 : Nat) := by
    rw [oneExtentImage_flattened]
    decide
  have happends := hclaim _ _ 1 5 oneExtentImage_of (by decide) oneExtentImage_list hnew (by decide)
  have hblocks := happends.blocks
  rw [oneExtentImage_flattened,
    show flattened (updateExtent oneExtentImage (1 : Nat) (5 : Nat)) (1 : Nat) = [1, 2] by
      decide] at hblocks
  cases hblocks

end UoftOs.FileSystem
