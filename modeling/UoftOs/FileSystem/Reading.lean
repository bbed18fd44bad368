import UoftOs.FileSystem.Resolution

/-!
# Reads against the logical file

Block `k` of the logical file is the `k`-th block of its flattened extents.
`a1fs_read` reads from the first block of the extent that holds this block, and it
returns the size asked for wherever it does not return 0.
-/

namespace UoftOs.FileSystem

open Lib.ByteMemory

/-! ## The logical file -/

/-- The flattened extents of inode `i`. -/
def blocksOf (img : Image) (i : Nat) : List Int :=
  fileBlocks img (extentAddr img i) (extentCount img (inodeAddr img i))

/-- A byte of the logical file. -/
def fileByte (img : Image) (i q : Nat) : UInt8 :=
  img (dataAddr img ((blocksOf img i).getD (q / 4096) 0) + (q % 4096 : Nat))

/-- The bytes of the logical file from `offset` on, clipped at the end of the file. -/
def fileRange (img : Image) (i size offset : Nat) : List UInt8 :=
  (List.range (min size (inodeSize img (inodeAddr img i) - offset))).map fun k =>
    fileByte img i (offset + k)

/-- `a1fs_read` returns the clipped range of the logical file and its length. -/
def ReadsReference (img : Image) (path : Path) (i size offset : Nat) : Prop :=
  a1fsRead img path size offset =
    .ok ((min size (inodeSize img (inodeAddr img i) - offset) : Nat), fileRange img i size offset)

/-- Extent `k` of inode `i` holds block `q` of the logical file. -/
def HoldsBlock (img : Image) (i k q : Nat) : Prop :=
  (fileBlocks img (extentAddr img i) k).length ≤ q ∧
    q < (fileBlocks img (extentAddr img i) (k + 1 : Nat)).length

/-- The first block of extent `k`. -/
def extentHead (img : Image) (i k : Nat) : Int := int32 (extentStart img (extentAddr img i) k)

/-- The range lies within the file, and the block it is in starts an extent or holds the
same bytes there as the first block of its extent; or nothing is to be read. -/
def ReadsRight (img : Image) (i size offset : Nat) : Prop :=
  let fileSize := inodeSize img (inodeAddr img i)
  if int32 fileSize < offset then fileSize ≤ offset ∨ size = 0
  else
    0 < extentCount img (inodeAddr img i) ∧
      (size = 0 ∨ (offset + size ≤ fileSize ∧
        ∃ k : Nat, (k : Int) < extentCount img (inodeAddr img i) ∧
          HoldsBlock img i k (offset / 4096) ∧
          ((fileBlocks img (extentAddr img i) k).length = offset / 4096 ∨
            bytesAt img (dataAddr img (extentHead img i k) + (offset % 4096 : Nat)) size =
              fileRange img i size offset)))

/-- Extents that `int` arithmetic can count. -/
structure CountableExtents (img : Image) (i : Nat) : Prop where
  extents : ∀ k : Nat, (k : Int) < extentCount img (inodeAddr img i) →
    extentStart img (extentAddr img i) k + extentLength img (extentAddr img i) k < 2147483648
  blocks : (blocksOf img i).length < 2147483648

variable {img : Image} {path : Path} {e : Int} {i k n q size offset : Nat}

/-! ## The walk over the extents -/

theorem fileBlocks_succ :
    fileBlocks img e (k + 1 : Nat) = fileBlocks img e k ++ extentBlocks img e k := by
  rw [fileBlocks, Int.toNat_natCast, List.range_succ, List.flatMap_append, fileBlocks,
    Int.toNat_natCast, List.flatMap_singleton]

theorem length_extentBlocks (h : extentStart img e k + extentLength img e k < 2147483648) :
    (extentBlocks img e k).length = extentLength img e k := by
  rw [extentBlocks_eq rfl rfl h, List.length_map, List.length_range']

theorem fileBlocks_mono {m : Nat} (h : k ≤ m) : fileBlocks img e k <+: fileBlocks img e m := by
  induction m with
  | zero =>
      obtain rfl : k = 0 := by omega
      exact List.prefix_rfl
  | succ m ih =>
      rcases Nat.lt_or_ge m k with hlt | hle
      · obtain rfl : k = m + 1 := by omega
        exact List.prefix_rfl
      · rw [fileBlocks_succ]
        exact (ih hle).trans (List.prefix_append _ _)

/-- The blocks up to an extent of the inode stand at the front of the file. -/
theorem fileBlocks_blocksOf (h : (k : Int) < extentCount img (inodeAddr img i)) :
    fileBlocks img (extentAddr img i) (k + 1 : Nat) <+: blocksOf img i := by
  unfold blocksOf
  revert h
  generalize extentCount img (inodeAddr img i) = c
  intro h
  obtain ⟨n, rfl⟩ := Int.eq_ofNat_of_zero_le ((Int.natCast_nonneg k).trans h.le)
  exact fileBlocks_mono (by omega)

/-- The loop ends at the extent that holds the block, when `total k` blocks stand before
extent `k`. -/
theorem readExtent_eq (total : Nat → Nat) (hnext : ∀ k < n,
      int32 (total k + int32 (extentLength img e k)) = (total (k + 1) : Nat))
    (hq : q < total n) (hk : k ≤ n) (hle : total k ≤ q) (start : Option Int) :
    ∃ j < n, total j ≤ q ∧ q < total (j + 1) ∧
      readExtent img e q (List.range' k (n - k)) (total k) start =
        some (int32 (extentStart img e j)) := by
  obtain ⟨m, hm⟩ : ∃ m, n - k = m := ⟨_, rfl⟩
  induction m generalizing k start with
  | zero =>
      obtain rfl : k = n := by omega
      omega
  | succ m ih =>
      have hkn : k < n := by omega
      rw [hm, List.range'_succ, readExtent]
      simp only [hnext k hkn]
      by_cases hlt : q < total (k + 1)
      · rw [if_pos (by omega)]
        exact ⟨k, hkn, hle, hlt, rfl⟩
      · have hlen : n - (k + 1) = m := by omega
        have hrest := ih (by omega) (by omega) (some (int32 (extentStart img e k))) hlen
        rw [hlen] at hrest
        rw [if_neg (by omega)]
        exact hrest

theorem readExtent_isSome {is : List Nat} (blocks : Int) {start : Option Int}
    (h : is ≠ [] ∨ start.isSome) : ∃ s, readExtent img e q is blocks start = some s := by
  induction is generalizing blocks start with
  | nil => exact Option.isSome_iff_exists.mp (h.resolve_left (not_not.mpr rfl))
  | cons k is ih =>
      rw [readExtent]
      split
      · exact ⟨_, rfl⟩
      · exact ih _ (.inr rfl)

/-! ## The whole read -/

namespace CountableExtents

variable (h : CountableExtents img i)
include h

/-- The blocks before the next extent, as the loop counts them. -/
theorem next_total (hk : (k : Int) < extentCount img (inodeAddr img i)) :
    int32 ((fileBlocks img (extentAddr img i) k).length +
        int32 (extentLength img (extentAddr img i) k)) =
      (fileBlocks img (extentAddr img i) (k + 1 : Nat)).length := by
  have hsum := h.extents k hk
  have hblocks := h.blocks
  have hlen := length_extentBlocks hsum
  have hmono := (fileBlocks_blocksOf hk).length_le
  rw [fileBlocks_succ, List.length_append, hlen] at hmono ⊢
  revert hsum hblocks hmono
  generalize (fileBlocks img (extentAddr img i) k).length = a
  generalize (blocksOf img i).length = b
  generalize extentLength img (extentAddr img i) k = c
  generalize extentStart img (extentAddr img i) k = d
  intro hsum hblocks hmono
  have hself : int32 (c : Int) = c := int32_of_bounds (by omega) (by omega)
  rw [hself, int32_of_bounds (by omega) (by omega)]
  omega

/-- The start that is read for a block of the file is that of the extent that holds it. -/
theorem readExtent_holds (hq : q < (blocksOf img i).length) :
    ∃ k : Nat, (k : Int) < extentCount img (inodeAddr img i) ∧ HoldsBlock img i k q ∧
      readExtent img (extentAddr img i) q
        (List.range (extentCount img (inodeAddr img i)).toNat) 0 none =
          some (extentHead img i k) := by
  obtain ⟨n, hn⟩ : ∃ n, (extentCount img (inodeAddr img i)).toNat = n := ⟨_, rfl⟩
  have hlen : (fileBlocks img (extentAddr img i) n).length = (blocksOf img i).length := by
    rw [blocksOf, fileBlocks, fileBlocks, hn, Int.toNat_natCast]
  rw [← hlen] at hq
  obtain ⟨k, hk, hle, hlt, hread⟩ :=
    readExtent_eq (fun k => (fileBlocks img (extentAddr img i) k).length)
      (fun k hk => h.next_total (by omega)) hq (Nat.zero_le n) (Nat.zero_le q) none
  rw [hn, List.range_eq_range']
  exact ⟨k, by omega, ⟨hle, hlt⟩, hread⟩

end CountableExtents

theorem HoldsBlock.unique {k' : Nat} (hk : HoldsBlock img i k q) (hk' : HoldsBlock img i k' q) :
    k = k' := by
  obtain ⟨hle, hlt⟩ := hk
  obtain ⟨hle', hlt'⟩ := hk'
  rcases Nat.lt_trichotomy k k' with hbelow | heq | habove
  · have hmono : fileBlocks img (extentAddr img i) (k + 1 : Nat) <+: _ := fileBlocks_mono hbelow
    exact absurd (lt_of_lt_of_le hlt (hmono.length_le.trans hle')) (lt_irrefl q)
  · exact heq
  · have hmono : fileBlocks img (extentAddr img i) (k' + 1 : Nat) <+: _ := fileBlocks_mono habove
    exact absurd (lt_of_lt_of_le hlt' (hmono.length_le.trans hle)) (lt_irrefl q)

/-- The block that starts an extent is the extent's first block. -/
theorem HoldsBlock.head (hk : HoldsBlock img i k q) (hextents : CountableExtents img i)
    (hlt : (k : Int) < extentCount img (inodeAddr img i))
    (hfirst : (fileBlocks img (extentAddr img i) k).length = q) :
    (blocksOf img i).getD q 0 = extentHead img i k := by
  obtain ⟨rest, hrest⟩ := fileBlocks_blocksOf hlt
  have hsum := hextents.extents k hlt
  have hpos : 0 < (extentBlocks img (extentAddr img i) k).length := by
    have hq := hk.2
    rw [fileBlocks_succ, List.length_append] at hq
    omega
  obtain ⟨b, bs, hcons⟩ := List.exists_cons_of_length_pos hpos
  have hb : b = extentHead img i k := by
    rw [length_extentBlocks hsum] at hpos
    obtain ⟨c, hc⟩ := Nat.exists_eq_add_of_lt hpos
    rw [extentBlocks_eq rfl rfl hsum, hc, Nat.zero_add, List.range'_succ, List.map_cons] at hcons
    rw [extentHead, int32_of_bounds (by omega) (by omega)]
    exact (List.cons.inj hcons).1.symm
  rw [← hrest, fileBlocks_succ, hcons, List.append_assoc, ← hfirst, ← hb,
    List.getD_append_right _ _ _ _ (le_refl _), Nat.sub_self]
  rfl

theorem fileRange_of_le (hfits : offset + size ≤ inodeSize img (inodeAddr img i)) :
    fileRange img i size offset =
      (List.range size).map fun k => fileByte img i (offset + k) := by
  rw [fileRange, Nat.min_eq_left (by omega)]

/-- In one block the logical file is the bytes of this block. -/
theorem fileRange_eq (hfits : offset + size ≤ inodeSize img (inodeAddr img i))
    (hblock : offset % 4096 + size ≤ 4096) :
    fileRange img i size offset = bytesAt img
      (dataAddr img ((blocksOf img i).getD (offset / 4096) 0) + (offset % 4096 : Nat)) size := by
  rw [fileRange_of_le hfits, bytesAt]
  apply List.map_congr_left
  intro k hk
  have hlt := List.mem_range.mp hk
  have hdiv : (offset + k) / 4096 = offset / 4096 := by omega
  have hmod : (offset + k) % 4096 = offset % 4096 + k := by omega
  rw [fileByte, hdiv, hmod, Int.natCast_add, Int.add_assoc]

theorem fileRange_nil (h : size = 0 ∨ inodeSize img (inodeAddr img i) ≤ offset) :
    fileRange img i size offset = [] := by
  have hmin : min size (inodeSize img (inodeAddr img i) - offset) = 0 := by omega
  rw [fileRange, hmin]
  rfl

/-- `a1fs_read` is the reference read exactly under the condition. -/
theorem readsReference_iff (hpath : pathInode img path = .ok (i : Int))
    (hextents : CountableExtents img i)
    (hcover : inodeSize img (inodeAddr img i) ≤ 4096 * (blocksOf img i).length)
    (hblock : offset % 4096 + size ≤ 4096) :
    ReadsReference img path i size offset ↔ ReadsRight img i size offset := by
  have hnil : size = 0 ∨ inodeSize img (inodeAddr img i) ≤ offset →
      fileRange img i size offset = [] := fileRange_nil
  unfold ReadsReference ReadsRight
  rw [a1fsRead, hpath, ok_bind]
  obtain ⟨F, hF⟩ : ∃ F, inodeSize img (inodeAddr img i) = F := ⟨_, rfl⟩
  simp only [hF] at hnil ⊢
  by_cases hend : int32 F < offset
  · rw [if_pos hend, if_pos hend]
    constructor
    · intro h
      rw [Except.ok.injEq, Prod.mk.injEq] at h
      have hmin := h.1
      omega
    · intro h
      have hmin : min size (F - offset) = 0 := by omega
      rw [hmin, hnil h.symm]
      rfl
  · have hend' := (int32_bounds F).2
    have hoffset : offset < 2147483648 := by omega
    have hself : int32 (offset / 4096 : Nat) = (offset / 4096 : Nat) :=
      int32_of_bounds (by omega) (by omega)
    have hsize : int32 size = size := int32_of_bounds (by omega) (by omega)
    rw [if_neg hend, if_neg hend, hself, hsize]
    by_cases hcount : 0 < extentCount img (inodeAddr img i)
    case neg =>
        rw [Int.toNat_eq_zero.mpr (not_lt.mp hcount)]
        exact iff_of_false (fun h => nomatch h) fun h => hcount h.1
    obtain ⟨start, hstart⟩ : ∃ start, readExtent img (extentAddr img i) (offset / 4096 : Nat)
        (List.range (extentCount img (inodeAddr img i)).toNat) 0 none = some start := by
      refine readExtent_isSome 0 (.inl fun hnil => ?_)
      rw [List.range_eq_nil] at hnil
      exact absurd (Int.toNat_eq_zero.mp hnil) (not_le.mpr hcount)
    rw [hstart, Option.elim_some, Except.ok.injEq, Prod.mk.injEq]
    rcases Nat.eq_zero_or_pos size with rfl | hpos
    · rw [hnil (.inl rfl), Nat.zero_min]
      exact iff_of_true ⟨rfl, rfl⟩ ⟨hcount, .inl rfl⟩
    by_cases hfits : offset + size ≤ F
    case neg =>
        refine iff_of_false (fun h => ?_) fun h => ?_
        · have hmin := h.1
          omega
        · rcases h.2 with hzero | hrest
          · omega
          · exact hfits hrest.1
    have hq : offset / 4096 < (blocksOf img i).length := by
      rw [hF] at hcover
      omega
    obtain ⟨k, hk, hholds, hread⟩ := hextents.readExtent_holds hq
    obtain rfl : extentHead img i k = start := by
      rw [hread] at hstart
      exact Option.some.inj hstart
    have hmin : min size (F - offset) = size := by omega
    rw [hmin]
    constructor
    · rintro ⟨-, hbytes⟩
      exact ⟨hcount, .inr ⟨hfits, k, hk, hholds, .inr hbytes⟩⟩
    · rintro ⟨-, hzero | ⟨-, k', hk', hholds', hfirst | hbytes⟩⟩
      · exact absurd hzero (Nat.pos_iff_ne_zero.mp hpos)
      · obtain rfl := hholds.unique hholds'
        rw [fileRange_eq (hF ▸ hfits) hblock, hholds.head hextents hk hfirst]
        exact ⟨rfl, rfl⟩
      · obtain rfl := hholds.unique hholds'
        exact ⟨rfl, hbytes⟩

/-! ## A file of two blocks -/

/-- The regular file `"/f"` with the extent of the blocks 1 and 2. Block 1 is zero, and
block 2 starts with the byte 7. -/
def twoBlockImage : Image :=
  let img : Image := fun _ => 0
  let img := set32 (set32 (set32 (set32 img 24 1) 28 2) 32 4) 36 2
  let img := setExtentCount (setSize (setMode img 4096 0o040755) 4096 256) 4096 1
  let img := setExtentCount (setSize (setMode img 4160 0o100644) 4160 8192) 4160 1
  let img := setExtentLength (setInoNumber img 4160 1) 8192 0 1
  let img := setExtentLength (setExtentStart img 12288 0 1) 12288 0 2
  store (putDentry img 16384 1 [102]) 24576 [7]

theorem twoBlockImage_file :
    pathInode twoBlockImage fileTarget.path = .ok (1 : Nat) ∧
      extentCount twoBlockImage (inodeAddr twoBlockImage (1 : Nat)) = 1 ∧
      blocksOf twoBlockImage 1 = [1, 2] ∧
      inodeSize twoBlockImage (inodeAddr twoBlockImage (1 : Nat)) = 8192 ∧
      sIsReg (inodeMode twoBlockImage (inodeAddr twoBlockImage (1 : Nat))) := by
  decide

theorem twoBlockImage_countable : CountableExtents twoBlockImage 1 := by
  obtain ⟨-, hcount, hblocks, -⟩ := twoBlockImage_file
  constructor
  · intro k hk
    rw [hcount] at hk
    obtain rfl : k = 0 := by omega
    decide
  · rw [hblocks]
    decide

/-- The first byte of the file. -/
theorem readsReference_iff_first :
    ReadsReference twoBlockImage fileTarget.path 1 1 0 ↔ ReadsRight twoBlockImage 1 1 0 := by
  obtain ⟨hpath, -, hblocks, hsize, -⟩ := twoBlockImage_file
  refine readsReference_iff hpath twoBlockImage_countable ?_ (by decide)
  rw [hblocks, hsize]
  decide

/-- The first byte of block 2 is read as that of block 1. -/
theorem read_ignores_second_block :
    ¬ ∀ (img : Image) (path : Path) (i size offset : Nat), pathInode img path = .ok (i : Int) →
      sIsReg (inodeMode img (inodeAddr img i)) → CountableExtents img i →
        inodeSize img (inodeAddr img i) ≤ 4096 * (blocksOf img i).length →
          offset % 4096 + size ≤ 4096 → ReadsReference img path i size offset := by
  intro hclaim
  obtain ⟨hpath, -, hblocks, hsize, hreg⟩ := twoBlockImage_file
  have hcover : inodeSize twoBlockImage (inodeAddr twoBlockImage (1 : Nat)) ≤
      4096 * (blocksOf twoBlockImage 1).length := by
    rw [hblocks, hsize]
    decide
  have hreads := hclaim twoBlockImage _ 1 1 4096 hpath hreg twoBlockImage_countable hcover
    (by decide)
  have hread : a1fsRead twoBlockImage fileTarget.path 1 4096 = .ok (1, [0]) := by
    decide +kernel
  have hrange : fileRange twoBlockImage 1 1 4096 = [7] := by
    decide
  rw [ReadsReference, hread, hrange] at hreads
  have hbytes : ([0] : List UInt8) = [7] := congrArg Prod.snd (Except.ok.inj hreads)
  cases hbytes

end UoftOs.FileSystem
