import UoftOs.FileSystem.Mkfs

/-!
# What formatting guarantees

`mkfs` checks neither its arithmetic nor the size of the image. The layouts it
gets right are those with few enough inodes for the image, and a fresh file
system never has consistent counters.
-/

namespace UoftOs.FileSystem

open Lib.ByteMemory

def IsInt (x : Int) : Prop := -2147483648 ≤ x ∧ x < 2147483648

def IsUnsigned (x : Int) : Prop := 0 ≤ x ∧ x < 4294967296

def IsSize (x : Int) : Prop := 0 ≤ x ∧ x < 18446744073709551616

/-- No computation of `mkfs` leaves the range of its type. -/
structure Exact (size n : Nat) : Prop where
  inodeBitSize : IsInt (n / 32768 + 1 : Nat)
  inodeSize : IsInt (n / 64 + 1 : Nat)
  startDataMap : IsInt (n / 32768 + 2 : Nat)
  startInode : IsInt (n / 32768 + 4 : Nat)
  startExtent : IsInt (n / 32768 + n / 64 + 5 : Nat)
  extentSum : IsSize (dataStart n)
  startData : IsInt (dataStart n)
  inodesCount : IsUnsigned n
  reserved : IsSize (dataStart n + 3 : Nat)
  rest : IsSize (size / 4096 - (dataStart n + 3))
  blocksCount : IsUnsigned (size / 4096 - (dataStart n + 3))
  freeBlocksCount : IsUnsigned (size / 4096 - (dataStart n + 3) - 1)
  freeInodesCount : IsUnsigned (n - 1)
  addresses : ∀ b ∈ [1, n / 32768 + 2, n / 32768 + 3, n / 32768 + 4, n / 32768 + n / 64 + 5,
    dataStart n], IsInt (b * 4096 : Nat)
  mapLoop : ∀ i < n / 32768 + 1, IsInt (4096 * i : Nat)

/-- The superblock records regions that lie in the image in order, with room for
all inodes and a bit for each data block. -/
def Fits (img : Image) (size : Nat) : Prop :=
  ∃ L : Layout, L.Of img ∧ 1 ≤ L.blocks ∧ L.blocks ≤ 65536 ∧ L.data + L.blocks ≤ size / 4096

/-- The layouts that `mkfs` gets right. -/
def LayoutFits (size n : Nat) : Prop :=
  dataStart n < 524288 ∧ dataStart n + 4 ≤ size / 4096 ∧ size / 4096 ≤ dataStart n + 3 + 65536

instance (size n : Nat) : Decidable (LayoutFits size n) := inferInstanceAs (Decidable (_ ∧ _))

variable {img : Image} {size n : Nat}

theorem exact_of_layoutFits (hn : 0 < n) (h : LayoutFits size n) : Exact size n := by
  obtain ⟨hlt, hlo, hhi⟩ := h
  have hstart : dataStart n = n / 32768 + n / 64 + 5 + n := rfl
  constructor <;> simp only [IsInt, IsUnsigned, IsSize, List.mem_cons, List.not_mem_nil, or_false]
  case addresses => rintro b (rfl | rfl | rfl | rfl | rfl | rfl) <;> omega
  case mapLoop =>
      intro i hi
      omega
  all_goals omega

theorem formatBlocks_of_exact (h : Exact size n) :
    (formatBlocks size n : Int) = size / 4096 - (dataStart n + 3) := by
  obtain ⟨hlo, hhi⟩ := h.blocksCount
  rw [formatBlocks, uint64_of_bounds hlo (by omega), uint32_of_bounds hlo hhi]

/-- Formatting leaves a layout that fits, computed without overflow, exactly for
few enough inodes and at most 65536 data blocks. -/
theorem mkfs_fits_iff (hn : 0 < n) :
    ((mkfs img size n).1 = true → Exact size n ∧ Fits (mkfs img size n).2 size) ↔
      LayoutFits size n := by
  constructor
  · intro h
    obtain ⟨hexact, L, hof, hpos, hbits, hin⟩ := h rfl
    have hlast := hexact.addresses (dataStart n) (by simp)
    have hlt : dataStart n < 524288 := by
      obtain ⟨_, hhi⟩ := hlast
      omega
    have hblocks : L.blocks = formatBlocks size n := by
      rw [← hof.blocksCount, (mkfs_of hn hlt).blocksCount]
      rfl
    have hcount := formatBlocks_of_exact hexact
    unfold LayoutFits
    omega
  · intro h _
    have hexact := exact_of_layoutFits hn h
    have hcount := formatBlocks_of_exact hexact
    obtain ⟨hlt, hlo, hhi⟩ := h
    refine ⟨hexact, formatLayout size n hn hlt, mkfs_of hn hlt, ?_⟩
    simp only [formatLayout]
    omega

/-- An image of 256 blocks with 32 inodes. -/
theorem mkfs_fits_iff_small :
    ((mkfs (fun _ => 0) 1048576 32).1 = true →
      Exact 1048576 32 ∧ Fits (mkfs (fun _ => 0) 1048576 32).2 1048576) ↔
      LayoutFits 1048576 32 :=
  mkfs_fits_iff (by decide)

/-- An image of one block is formatted all the same. -/
theorem mkfs_accepts_one_block :
    ¬ ((mkfs (fun _ => 0) 4096 1).1 = true →
      Exact 4096 1 ∧ Fits (mkfs (fun _ => 0) 4096 1).2 4096) := by
  intro h
  obtain ⟨hexact, _⟩ := h rfl
  obtain ⟨hlo, _⟩ := hexact.rest
  exact absurd hlo (by decide)

/-! ## The fresh file system -/

/-- What a consistent empty file system looks like. -/
structure EmptyFileSystem (img : Image) : Prop where
  inodeBits : ∀ i : Nat, i < 32768 * (startDataMap img - startInodeMap img) →
    bitSet img (inodeMapAddr img) i = decide (i = 0)
  dataBits : ∀ i < 65536, bitSet img (dataMapAddr img) i = decide (i = 0)
  freeInodes : (freeInodesCount img : Int) = inodesCount img - 1
  freeBlocks : (freeBlocksCount img : Int) = blocksCount img - 1
  lookup : ∀ name, helper img (inodeAddr img 0) name =
    .ok (if name = dot ∨ name = dotDot then 0 else -enoent)

/-- Formatting never leaves a consistent file system: the counters are copied to
the image before they are decremented. -/
theorem mkfs_never_empty (hn : 0 < n) (h : dataStart n < 524288) :
    (mkfs img size n).1 = true ∧ ¬ EmptyFileSystem (mkfs img size n).2 := by
  refine ⟨rfl, fun hempty => ?_⟩
  have hfree := hempty.freeInodes
  rw [mkfs_freeInodesCount hn h, (mkfs_of hn h).inodesCount] at hfree
  simp only [formatLayout] at hfree
  omega

theorem mkfs_never_empty_small :
    (mkfs (fun _ => 0) 1048576 32).1 = true ∧
      ¬ EmptyFileSystem (mkfs (fun _ => 0) 1048576 32).2 :=
  mkfs_never_empty (by decide) (by decide)

/-- Bits of the inode bitmap survive from before the format. -/
theorem mkfs_keeps_stale_bits : ¬ EmptyFileSystem (mkfs (fun _ => 255) 1048576 32).2 := by
  intro h
  have hof : (formatLayout 1048576 32 (by decide) (by decide)).Of
      (mkfs (fun _ => 255) 1048576 32).2 := mkfs_of (by decide) (by decide)
  have hbit := h.inodeBits 32 (by
    rw [hof.startDataMap, hof.startInodeMap]
    decide)
  rw [hof.inodeMapAddr, mkfs_eq_formatImage (by decide) (by decide), bitSet_eq_byteBit,
    formatImage_inodeMap rfl (by decide) (by decide)] at hbit
  exact absurd hbit (by decide)

end UoftOs.FileSystem
