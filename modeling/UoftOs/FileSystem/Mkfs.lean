import UoftOs.FileSystem.Bitmap
import UoftOs.FileSystem.Layout
import UoftOs.FileSystem.Paths

/-!
# Formatting an image

`mkfs` computes a superblock from the image size and the number of inodes and
stores it with an empty root directory. It refuses nothing.

## Implementation notes

`formatSuperblock` holds the fields as they are when they are copied to the image;
the two counters that the source decrements after the copy never reach it.
-/

namespace UoftOs.FileSystem

open Lib.ByteMemory

/-- `A1FS_MAGIC`. -/
def a1fsMagic : Nat := 0xC5C369A1C5C369A1

/-- `a1fs_superblock`. -/
structure Superblock where
  magic : Nat
  size : Nat
  startInodeMap : Int
  startDataMap : Int
  startInode : Int
  startExtent : Int
  startData : Int
  inodesCount : Nat
  blocksCount : Nat
  freeBlocksCount : Nat
  freeInodesCount : Nat

/-- `inode_bit_size`. -/
def inodeBitSize (nInodes : Nat) : Int := int32 (nInodes / 32768 + 1 : Nat)

/-- `inode_size`. -/
def inodeSizeBlocks (nInodes : Nat) : Int := int32 (nInodes / 64 + 1 : Nat)

/-- The superblock that `mkfs` copies to the image. -/
def formatSuperblock (size nInodes : Nat) : Superblock :=
  let startInode := int32 (inodeBitSize nInodes + 3)
  let startExtent := int32 (startInode + inodeSizeBlocks nInodes)
  let rest := uint64 (size / 4096 - uint64 (startExtent + nInodes + 3))
  { magic := a1fsMagic
    size := size
    startInodeMap := 1
    startDataMap := int32 (1 + inodeBitSize nInodes)
    startInode := startInode
    startExtent := startExtent
    startData := int32 (uint64 (startExtent + nInodes))
    inodesCount := uint32 nInodes
    blocksCount := uint32 rest
    freeBlocksCount := uint32 rest
    freeInodesCount := uint32 nInodes }

/-- `memcpy(image, &sb, sizeof(a1fs_superblock))`. -/
def storeSuperblock (img : Image) (sb : Superblock) : Image :=
  let img := set64 img 0 sb.magic
  let img := set64 img 8 sb.size
  let img := set32 img 16 sb.startInodeMap
  let img := set32 img 20 sb.startDataMap
  let img := set32 img 24 sb.startInode
  let img := set32 img 28 sb.startExtent
  let img := set32 img 32 sb.startData
  let img := set32 img 36 sb.inodesCount
  let img := set32 img 40 sb.blocksCount
  let img := set32 img 44 sb.freeBlocksCount
  let img := set32 img 48 sb.freeInodesCount
  fill img 52 0 4

/-- The copy of the root directory's inode. -/
def storeRootInode (img : Image) (p : Int) : Image :=
  let img := fill img p 0 64
  let img := setMode img p (sIfDir ||| 0o777 : Nat)
  let img := setLinks img p 2
  let img := setSize img p 512
  setExtentCount img p 1

/-- The copy of a directory entry for inode 0. -/
def storeRootEntry (img : Image) (d : Int) (name : Name) : Image :=
  setDentryName (fill img d 0 256) d name

/-- The loop over the blocks of the inode bitmap. -/
def clearInodeMap (startInodeMap : Int) (img : Image) (blocks : Nat) : Image :=
  (List.range blocks).foldl
    (fun img (i : Nat) => fill img (int32 (blockOff startInodeMap * i)) 0 4096) img

/-- `mkfs`. -/
def mkfs (img : Image) (size nInodes : Nat) : Bool × Image :=
  let sb := formatSuperblock size nInodes
  let img := storeSuperblock img sb
  let img := storeRootInode img (blockOff sb.startInode)
  let img := clearInodeMap sb.startInodeMap img (inodeBitSize nInodes).toNat
  let img := fill img (blockOff sb.startDataMap) 0 4096
  let img := fill img (blockOff (sb.startDataMap + 1)) 0 4096
  let img := storeSuperblock img sb
  let img := set32 img (blockOff sb.startInodeMap) 128
  let img := set32 img (blockOff sb.startDataMap) 128
  let img := storeRootEntry img (blockOff sb.startData) dot
  let img := storeRootEntry img (blockOff sb.startData + 256) dotDot
  let img := setExtentStart img (blockOff sb.startExtent) 0 0
  let img := setExtentLength img (blockOff sb.startExtent) 0 1
  (true, img)

/-! ## The numbers without overflow -/

/-- The first data block, computed without overflow. -/
def dataStart (nInodes : Nat) : Nat := nInodes / 32768 + nInodes / 64 + 5 + nInodes

variable {img : Image} {size n : Nat}

theorem inodeBitSize_eq (h : dataStart n < 524288) : inodeBitSize n = (n / 32768 + 1 : Nat) := by
  unfold dataStart at h
  exact int32_of_bounds (by omega) (by omega)

theorem inodeSizeBlocks_eq (h : dataStart n < 524288) :
    inodeSizeBlocks n = (n / 64 + 1 : Nat) := by
  unfold dataStart at h
  exact int32_of_bounds (by omega) (by omega)

theorem formatSuperblock_startDataMap (h : dataStart n < 524288) :
    (formatSuperblock size n).startDataMap = (n / 32768 + 2 : Nat) := by
  simp only [formatSuperblock, inodeBitSize_eq h]
  unfold dataStart at h
  rw [int32_of_bounds (by omega) (by omega)]
  omega

theorem formatSuperblock_startInode (h : dataStart n < 524288) :
    (formatSuperblock size n).startInode = (n / 32768 + 4 : Nat) := by
  simp only [formatSuperblock, inodeBitSize_eq h]
  unfold dataStart at h
  rw [int32_of_bounds (by omega) (by omega)]
  omega

theorem formatSuperblock_startExtent (h : dataStart n < 524288) :
    (formatSuperblock size n).startExtent = (n / 32768 + n / 64 + 5 : Nat) := by
  have hstart : (formatSuperblock size n).startExtent =
      int32 ((formatSuperblock size n).startInode + inodeSizeBlocks n) := by
    simp only [formatSuperblock]
  rw [hstart, formatSuperblock_startInode h, inodeSizeBlocks_eq h]
  unfold dataStart at h
  rw [int32_of_bounds (by omega) (by omega)]
  omega

theorem formatSuperblock_startData (h : dataStart n < 524288) :
    (formatSuperblock size n).startData = dataStart n := by
  have hstart : (formatSuperblock size n).startData =
      int32 (uint64 ((formatSuperblock size n).startExtent + n)) := by
    simp only [formatSuperblock]
  unfold dataStart at h
  rw [hstart, formatSuperblock_startExtent h, uint64_of_bounds (by omega) (by omega),
    int32_of_bounds (by omega) (by omega), dataStart]
  omega

theorem formatSuperblock_inodesCount (h : dataStart n < 524288) :
    (formatSuperblock size n).inodesCount = n := by
  unfold dataStart at h
  have hn : (uint32 n : Int) = n := uint32_of_bounds (by omega) (by omega)
  exact_mod_cast hn

/-- The number of data blocks that `mkfs` stores. -/
def formatBlocks (size nInodes : Nat) : Nat :=
  uint32 (uint64 (size / 4096 - (dataStart nInodes + 3)))

theorem formatSuperblock_blocksCount (h : dataStart n < 524288) :
    (formatSuperblock size n).blocksCount = formatBlocks size n := by
  have hcount : (formatSuperblock size n).blocksCount = uint32 (uint64 (size / 4096 -
      uint64 ((formatSuperblock size n).startExtent + n + 3))) := by
    simp only [formatSuperblock]
  rw [hcount, formatSuperblock_startExtent h, formatBlocks, uint64_of_bounds
    (x := ((n / 32768 + n / 64 + 5 : Nat) : Int) + n + 3) (by omega)
    (by unfold dataStart at h; omega), dataStart]
  congr 3

/-- The layout of a formatted image. -/
def formatLayout (size n : Nat) (hn : 0 < n) (h : dataStart n < 524288) : Layout where
  inodeMap := 1
  dataMap := n / 32768 + 2
  inodeTable := n / 32768 + 4
  extents := n / 32768 + n / 64 + 5
  data := dataStart n
  inodes := n
  blocks := formatBlocks size n
  inodeMap_pos := by omega
  inodeMap_lt := by omega
  dataMap_lt := by omega
  inodes_pos := hn
  inodeBits := by omega
  records := by omega
  extentBlocks := by unfold dataStart; omega
  data_lt := h

/-- What `mkfs` stores up to the cleared bitmaps when no address overflows. -/
def clearedImage (L : Layout) (sb : Superblock) (img : Image) : Image :=
  let img := storeSuperblock img sb
  let img := storeRootInode img (L.recordAt 0)
  let img := clearInodeMap 1 img (L.dataMap - 1)
  let img := fill img L.dataMapAt 0 4096
  fill img (L.dataMapAt + 4096) 0 4096

/-- What `mkfs` stores when no address overflows. -/
def formatImage (L : Layout) (sb : Superblock) (img : Image) : Image :=
  let img := storeSuperblock (clearedImage L sb img) sb
  let img := set32 img L.inodeMapAt 128
  let img := set32 img L.dataMapAt 128
  let img := storeRootEntry img (L.blockAt 0) dot
  let img := storeRootEntry img (L.blockAt 0 + 256) dotDot
  let img := setExtentStart img (L.extentAt 0) 0 0
  setExtentLength img (L.extentAt 0) 0 1

section Addresses

variable (hn : 0 < n) (h : dataStart n < 524288)

theorem blockOff_natCast {b : Nat} (hb : b < 524288) : blockOff b = 4096 * b :=
  blockOff_of_bounds (by omega) (by omega)

theorem startInodeMap_addr : blockOff 1 = (formatLayout size n hn h).inodeMapAt := by
  rw [blockOff_of_bounds (by omega) (by omega)]
  rfl

theorem startDataMap_addr :
    blockOff (formatSuperblock size n).startDataMap = (formatLayout size n hn h).dataMapAt := by
  have hbound := h
  unfold dataStart at hbound
  rw [formatSuperblock_startDataMap h]
  exact blockOff_natCast (by omega)

theorem startDataMap_succ_addr :
    blockOff ((formatSuperblock size n).startDataMap + 1) =
      (formatLayout size n hn h).dataMapAt + 4096 := by
  have hbound := h
  unfold dataStart at hbound
  rw [formatSuperblock_startDataMap h, blockOff_of_bounds (by omega) (by omega)]
  simp only [Layout.dataMapAt, formatLayout]
  omega

theorem startInode_addr :
    blockOff (formatSuperblock size n).startInode = (formatLayout size n hn h).recordAt 0 := by
  have hbound := h
  unfold dataStart at hbound
  rw [formatSuperblock_startInode h, blockOff_natCast (by omega)]
  simp only [Layout.recordAt, formatLayout]
  omega

theorem startExtent_addr :
    blockOff (formatSuperblock size n).startExtent = (formatLayout size n hn h).extentAt 0 := by
  have hbound := h
  unfold dataStart at hbound
  rw [formatSuperblock_startExtent h, blockOff_natCast (by omega)]
  simp only [Layout.extentAt, formatLayout]
  omega

theorem startData_addr :
    blockOff (formatSuperblock size n).startData = (formatLayout size n hn h).blockAt 0 := by
  rw [formatSuperblock_startData h, blockOff_natCast h]
  simp only [Layout.blockAt, formatLayout]
  omega

theorem mkfs_eq_formatImage :
    (mkfs img size n).2 =
      formatImage (formatLayout size n hn h) (formatSuperblock size n) img := by
  have hmap : (formatSuperblock size n).startInodeMap = 1 := by simp only [formatSuperblock]
  have hmapAt : blockOff 1 = (formatLayout size n hn h).inodeMapAt := startInodeMap_addr hn h
  have hcount : (inodeBitSize n).toNat = (formatLayout size n hn h).dataMap - 1 := by
    rw [inodeBitSize_eq h]
    simp only [formatLayout]
    omega
  simp only [mkfs, formatImage, clearedImage, startDataMap_addr hn h,
    startDataMap_succ_addr hn h, startInode_addr hn h, startExtent_addr hn h,
    startData_addr hn h, hmap, hmapAt, hcount]

end Addresses

/-! ## What stands in a formatted image -/

variable {sb : Superblock} {a b p x : Int} {k w : Nat}

theorem storeSuperblock_apply (h : x < 0 ∨ 56 ≤ x) : storeSuperblock img sb x = img x := by
  unfold storeSuperblock set64 set32
  rw [fill_apply_of_outside (by omega)]
  iterate 11 rw [storeNat_apply_of_outside (by omega)]

theorem storeRootInode_apply (h : x < p ∨ p + 64 ≤ x) : storeRootInode img p x = img x := by
  unfold storeRootInode setMode setLinks setSize setExtentCount set64 set32
  iterate 4 rw [storeNat_apply_of_outside (by omega)]
  exact fill_apply_of_outside (by omega)

theorem storeRootEntry_apply {name : Name} (hname : name.length ≤ 251)
    (h : x < a ∨ a + 256 ≤ x) : storeRootEntry img a name x = img x := by
  unfold storeRootEntry setDentryName
  rw [store_apply_of_outside (by rw [length_terminated]; omega)]
  exact fill_apply_of_outside (by omega)

/-- The loop clears the blocks from address 0 on, one for each block of the bitmap. -/
theorem clearInodeMap_apply (hk : k < 524288) :
    clearInodeMap 1 img k x = if 0 ≤ x ∧ x < 4096 * k then 0 else img x := by
  induction k with
  | zero =>
      rw [if_neg (by omega)]
      rfl
  | succ k ih =>
      have hstart : int32 (blockOff 1 * (k : Int)) = 4096 * k := by
        rw [blockOff_of_bounds (by omega) (by omega), int32_of_bounds (by omega) (by omega)]
        omega
      rw [clearInodeMap, List.range_succ, List.foldl_append, ← clearInodeMap, List.foldl_cons,
        List.foldl_nil, hstart]
      rcases Int.lt_or_le x (4096 * (k : Int)) with hlt | hge
      · have hsame : (0 ≤ x ∧ x < 4096 * (k : Int)) ↔
            (0 ≤ x ∧ x < 4096 * ((k + 1 : Nat) : Int)) := by omega
        rw [fill_apply_of_outside (by omega), ih (by omega)]
        simp only [hsame]
      · rcases Int.lt_or_le x (4096 * (k : Int) + 4096) with hin | hout
        · rw [fill_apply hge (by omega), if_pos (by omega)]
        · rw [fill_apply_of_outside (by omega), ih (by omega), if_neg (by omega),
            if_neg (by omega)]

theorem set32_start_apply :
    set32 img a 128 x = if x = a then 128 else if a < x ∧ x < a + 4 then 0 else img x := by
  have hbytes : set32 img a 128 = store img a [128, 0, 0, 0] := rfl
  rw [hbytes]
  split
  · rename_i heq
    subst heq
    simp [store]
  · split
    · rename_i hin
      have hcases : x - a = 1 ∨ x - a = 2 ∨ x - a = 3 := by omega
      have hle : a ≤ x := by omega
      rcases hcases with hx | hx | hx <;> simp [store, hle, hx]
    · exact store_apply_of_outside (by simp; omega)

/-- A bitmap whose only byte other than 0 is a leading 128 has exactly bit 0 set. -/
theorem bitSet_of_start (h : ∀ x, a ≤ x → x < a + k → img x = if x = a then 128 else 0)
    {i : Nat} (hi : i < 8 * k) : bitSet img a i = decide (i = 0) := by
  have hfirst : ∀ j < 8, byteBit 128 j = decide (j = 0) := by decide
  rw [bitSet_eq_byteBit, h _ (by omega) (by omega)]
  split
  · rw [hfirst _ (Nat.mod_lt _ (by omega)), decide_eq_decide]
    omega
  · have hne : i ≠ 0 := by
      rintro rfl
      simp_all
    simp [byteBit, hne]

section Regions

variable {L : Layout}

theorem formatImage_head (hlo : 0 ≤ x) (hhi : x < 4096) :
    formatImage L sb img x = storeSuperblock (clearedImage L sb img) sb x := by
  have := L.inodeMap_pos
  have := L.inodeMap_lt
  have := L.dataMap_lt
  have := L.extents_lt
  have := L.extentBlocks
  unfold formatImage setExtentStart setExtentLength set32 Layout.inodeMapAt Layout.dataMapAt
    Layout.blockAt Layout.extentAt
  rw [storeNat_apply_of_outside (by omega), storeNat_apply_of_outside (by omega),
    storeRootEntry_apply (by decide) (by omega), storeRootEntry_apply (by decide) (by omega),
    storeNat_apply_of_outside (by omega), storeNat_apply_of_outside (by omega)]

theorem formatImage_inodeMap (hmap : L.inodeMap = 1) (hlo : 4096 ≤ x)
    (hhi : x < 4096 * L.dataMap) :
    formatImage L sb img x = if x = 4096 then 128 else if x < 4100 then 0 else
      if x < 4096 * (L.dataMap - 1 : Nat) then 0 else img x := by
  have := L.inodeMap_lt
  have := L.dataMap_lt
  have := L.extents_lt
  have := L.extentBlocks
  have := L.data_lt
  unfold formatImage clearedImage setExtentStart setExtentLength
  rw [set32, storeNat_apply_of_outside (by unfold Layout.extentAt; omega), set32,
    storeNat_apply_of_outside (by unfold Layout.extentAt; omega),
    storeRootEntry_apply (by decide) (by unfold Layout.blockAt; omega),
    storeRootEntry_apply (by decide) (by unfold Layout.blockAt; omega), set32,
    storeNat_apply_of_outside (by unfold Layout.dataMapAt; omega), set32_start_apply]
  have hstart : L.inodeMapAt = 4096 := by
    rw [Layout.inodeMapAt, hmap]
    rfl
  rw [hstart, storeSuperblock_apply (by omega),
    fill_apply_of_outside (by unfold Layout.dataMapAt; omega),
    fill_apply_of_outside (by unfold Layout.dataMapAt; omega),
    clearInodeMap_apply (by omega), storeRootInode_apply (by unfold Layout.recordAt; omega),
    storeSuperblock_apply (by omega)]
  have hsmall : (4096 < x ∧ x < 4096 + 4) ↔ (x ≠ 4096 ∧ x < 4100) := by omega
  have hnonneg : (0 ≤ x ∧ x < 4096 * ((L.dataMap - 1 : Nat) : Int)) ↔
      x < 4096 * ((L.dataMap - 1 : Nat) : Int) := by omega
  simp only [hsmall, hnonneg]
  split
  · rfl
  · rename_i hne
    simp only [hne, ne_eq, not_false_eq_true, true_and]

theorem formatImage_dataMap (hlo : L.dataMapAt ≤ x) (hhi : x < L.dataMapAt + 8192) :
    formatImage L sb img x = if x = L.dataMapAt then 128 else 0 := by
  have := L.inodeMap_pos
  have := L.inodeMap_lt
  have := L.dataMap_lt
  have := L.extents_lt
  have := L.extentBlocks
  have hstart : L.dataMapAt = 4096 * L.dataMap := rfl
  unfold formatImage clearedImage setExtentStart setExtentLength
  rw [set32, storeNat_apply_of_outside (by unfold Layout.extentAt; omega), set32,
    storeNat_apply_of_outside (by unfold Layout.extentAt; omega),
    storeRootEntry_apply (by decide) (by unfold Layout.blockAt; omega),
    storeRootEntry_apply (by decide) (by unfold Layout.blockAt; omega), set32_start_apply,
    set32, storeNat_apply_of_outside (by unfold Layout.inodeMapAt; omega),
    storeSuperblock_apply (by omega)]
  split
  · rfl
  · split
    · rfl
    · rcases Int.lt_or_le x (L.dataMapAt + 4096) with hlt | hge
      · rw [fill_apply_of_outside (by omega), fill_apply (by omega) (by omega)]
      · rw [fill_apply (by omega) (by omega)]

/-- The root's record is the copy of `root`. -/
theorem formatImage_record :
    AgreeOn (formatImage L sb img) (storeRootInode (storeSuperblock img sb) (L.recordAt 0))
      (L.recordAt 0) (L.recordAt 0 + 64) := by
  have := L.inodeMap_pos
  have := L.inodeMap_lt
  have := L.dataMap_lt
  have := L.extents_lt
  have := L.extentBlocks
  have := L.data_lt
  intro x hlo hhi
  unfold Layout.recordAt at hlo hhi
  unfold formatImage clearedImage setExtentStart setExtentLength set32 Layout.inodeMapAt
    Layout.dataMapAt Layout.blockAt Layout.extentAt
  rw [storeNat_apply_of_outside (by omega), storeNat_apply_of_outside (by omega),
    storeRootEntry_apply (by decide) (by omega), storeRootEntry_apply (by decide) (by omega),
    storeNat_apply_of_outside (by omega), storeNat_apply_of_outside (by omega),
    storeSuperblock_apply (by omega), fill_apply_of_outside (by omega),
    fill_apply_of_outside (by omega), clearInodeMap_apply (by omega), if_neg (by omega)]

/-- The root's directory block begins with the entries of `"."` and `".."`. -/
theorem formatImage_block : ∃ m, AgreeOn (formatImage L sb img)
    (storeRootEntry (storeRootEntry m (L.blockAt 0) dot) (L.blockAt 0 + 256) dotDot)
    (L.blockAt 0) (L.blockAt 0 + 4096) := by
  have := L.extentBlocks
  have := L.inodes_pos
  refine ⟨set32 (set32 (storeSuperblock (clearedImage L sb img) sb) L.inodeMapAt 128)
    L.dataMapAt 128, fun x hlo hhi => ?_⟩
  unfold Layout.blockAt at hlo
  unfold formatImage setExtentStart setExtentLength set32 Layout.extentAt
  rw [storeNat_apply_of_outside (by omega), storeNat_apply_of_outside (by omega)]

theorem u32_formatImage (hlo : 0 ≤ a) (hhi : a + 4 ≤ 4096) :
    u32 (formatImage L sb img) a = u32 (storeSuperblock (clearedImage L sb img) sb) a := by
  apply load_congr
  intro x hx hx'
  exact formatImage_head (by omega) (by omega)

end Regions

/-! ## The formatted image -/

/-- The superblock fields of a formatted image are those that were copied. -/
theorem mkfs_superblock (hn : 0 < n) (h : dataStart n < 524288) :
    (formatLayout size n hn h).Of (mkfs img size n).2 ∧
      freeBlocksCount (mkfs img size n).2 = formatBlocks size n ∧
      freeInodesCount (mkfs img size n).2 = n := by
  have hbound := h
  unfold dataStart at hbound
  have hblocks : uint32 (formatBlocks size n) = formatBlocks size n := by
    have hlt : formatBlocks size n < 4294967296 := uint32_lt
    exact_mod_cast uint32_of_bounds (x := formatBlocks size n) (by omega) (by omega)
  have hinodes : uint32 n = n := by
    exact_mod_cast uint32_of_bounds (x := n) (by omega) (by omega)
  have hfree : (formatSuperblock size n).freeBlocksCount = formatBlocks size n :=
    formatSuperblock_blocksCount h
  have hcount : (formatSuperblock size n).freeInodesCount = n := by
    simp only [formatSuperblock, hinodes]
  have hmap : (formatSuperblock size n).startInodeMap = 1 := by simp only [formatSuperblock]
  rw [mkfs_eq_formatImage hn h]
  refine ⟨?_, ?_, ?_⟩
  · constructor <;>
      simp (disch := omega) only [startInodeMap, startDataMap, startInode, startExtent, startData,
        inodesCount, blocksCount, i32, u32_formatImage, storeSuperblock, u32_fill_of_disjoint,
        u32_set32_of_disjoint, u32_set32_self, int32_uint32, hmap,
        formatSuperblock_startDataMap h, formatSuperblock_startInode h,
        formatSuperblock_startExtent h, formatSuperblock_startData h,
        formatSuperblock_inodesCount h, formatSuperblock_blocksCount h, hblocks, hinodes,
        formatLayout]
    · exact int32_of_bounds (by omega) (by omega)
    · exact int32_of_bounds (by omega) (by omega)
    · exact int32_of_bounds (by omega) (by omega)
    · exact int32_of_bounds (by omega) (by omega)
    · exact int32_of_bounds (by omega) (by omega)
  · simp (disch := omega) only [freeBlocksCount, u32_formatImage, storeSuperblock,
      u32_fill_of_disjoint, u32_set32_of_disjoint, u32_set32_self, hfree, hblocks]
  · simp (disch := omega) only [freeInodesCount, u32_formatImage, storeSuperblock,
      u32_fill_of_disjoint, u32_set32_self, hcount, hinodes]

theorem mkfs_of (hn : 0 < n) (h : dataStart n < 524288) :
    (formatLayout size n hn h).Of (mkfs img size n).2 :=
  (mkfs_superblock hn h).1

theorem mkfs_freeInodesCount (hn : 0 < n) (h : dataStart n < 524288) :
    freeInodesCount (mkfs img size n).2 = n :=
  (mkfs_superblock hn h).2.2

/-- The data bitmap is right whatever the image held before. -/
theorem mkfs_dataBit (hn : 0 < n) (h : dataStart n < 524288) {i : Nat} (hi : i < 65536) :
    bitSet (mkfs img size n).2 (formatLayout size n hn h).dataMapAt i = decide (i = 0) := by
  rw [mkfs_eq_formatImage hn h]
  apply bitSet_of_start (k := 8192) _ (by omega)
  intro x hlo hhi
  exact formatImage_dataMap hlo hhi

/-- The inode bitmap is right when its bytes were zero before. -/
theorem mkfs_inodeBit (hn : 0 < n) (h : dataStart n < 524288)
    (hzero : ∀ x : Int, 4096 ≤ x → x < 4096 * (n / 32768 + 2 : Nat) → img x = 0) {i : Nat}
    (hi : i < 32768 * (n / 32768 + 1)) :
    bitSet (mkfs img size n).2 (formatLayout size n hn h).inodeMapAt i = decide (i = 0) := by
  have hmap : (formatLayout size n hn h).inodeMap = 1 := by simp only [formatLayout]
  have hstart : (formatLayout size n hn h).inodeMapAt = 4096 := by
    rw [Layout.inodeMapAt, hmap]
    rfl
  rw [mkfs_eq_formatImage hn h, hstart]
  have hbits : i < 8 * (4096 * (n / 32768 + 1)) := by
    rw [← Nat.mul_assoc]
    exact hi
  apply bitSet_of_start _ hbits
  intro x hlo hhi
  have hin : x < 4096 * (formatLayout size n hn h).dataMap := by
    simp only [formatLayout]
    omega
  rw [formatImage_inodeMap hmap hlo hin, hzero x hlo (by omega)]
  simp only [ite_self]

end UoftOs.FileSystem
