import UoftOs.FileSystem.Types

/-!
# Layouts of an image

A layout gives the regions of an image in blocks: the superblock, the two
bitmaps, the inode table, one extent block for each inode, and the data blocks.
Its fields keep the regions in order and large enough, so that the address
arithmetic of the driver can be read off as plain numbers.
-/

namespace UoftOs.FileSystem

open Lib.ByteMemory

/-- Regions in order, with room for the inodes, all addressed without overflow. -/
structure Layout where
  inodeMap : Nat
  dataMap : Nat
  inodeTable : Nat
  extents : Nat
  data : Nat
  inodes : Nat
  blocks : Nat
  inodeMap_pos : 0 < inodeMap
  inodeMap_lt : inodeMap < dataMap
  dataMap_lt : dataMap + 2 ≤ inodeTable
  inodes_pos : 0 < inodes
  inodeBits : 32768 * inodeMap + inodes ≤ 32768 * dataMap
  records : 64 * inodeTable + inodes ≤ 64 * extents
  extentBlocks : extents + inodes ≤ data
  data_lt : data < 524288

namespace Layout

/-- The superblock of the image records the layout. -/
structure Of (L : Layout) (img : Image) : Prop where
  startInodeMap : startInodeMap img = L.inodeMap
  startDataMap : startDataMap img = L.dataMap
  startInode : startInode img = L.inodeTable
  startExtent : startExtent img = L.extents
  startData : startData img = L.data
  inodesCount : inodesCount img = L.inodes
  blocksCount : blocksCount img = L.blocks

variable {L : Layout} {img img' img'' : Image} {i b : Nat}

/-! ## Addresses -/

def inodeMapAt (L : Layout) : Int := 4096 * L.inodeMap

def dataMapAt (L : Layout) : Int := 4096 * L.dataMap

/-- The record of inode `i`. -/
def recordAt (L : Layout) (i : Nat) : Int := 4096 * L.inodeTable + 64 * i

/-- The extent block of inode `i`. -/
def extentAt (L : Layout) (i : Nat) : Int := 4096 * (L.extents + i)

/-- Data block `b`. -/
def blockAt (L : Layout) (b : Nat) : Int := 4096 * (L.data + b)

theorem inodes_lt (L : Layout) : L.inodes < 524288 := by
  have := L.extentBlocks
  have := L.data_lt
  omega

theorem extents_lt (L : Layout) : L.inodeTable < L.extents := by
  have := L.records
  have := L.inodes_pos
  omega

end Layout

theorem blockOff_of_bounds {x : Int} (hlo : -524288 ≤ x) (hhi : x < 524288) :
    blockOff x = 4096 * x := by
  have hx : int32 x = x := int32_of_bounds (by omega) (by omega)
  rw [blockOff, hx, int32_of_bounds (by omega) (by omega)]
  omega

theorem blockOffUnsigned_of_bounds {x : Int} (hlo : 0 ≤ x) (hhi : x < 524288) :
    blockOffUnsigned x = 4096 * x := by
  have hx : (uint32 x : Int) = x := uint32_of_bounds hlo (by omega)
  rw [blockOffUnsigned, hx, uint32_of_bounds (by omega) (by omega)]
  omega

namespace Layout

variable {L : Layout} {img img' img'' : Image} {i b : Nat}

theorem Of.inodeMapAddr (h : L.Of img) : inodeMapAddr img = L.inodeMapAt := by
  have := L.inodeMap_lt
  have := L.dataMap_lt
  have := L.extents_lt
  have := L.extentBlocks
  have := L.data_lt
  rw [FileSystem.inodeMapAddr, h.startInodeMap, blockOff_of_bounds (by omega) (by omega),
    inodeMapAt]

theorem Of.dataMapAddr (h : L.Of img) : dataMapAddr img = L.dataMapAt := by
  have := L.dataMap_lt
  have := L.extents_lt
  have := L.extentBlocks
  have := L.data_lt
  rw [FileSystem.dataMapAddr, h.startDataMap, blockOff_of_bounds (by omega) (by omega), dataMapAt]

theorem Of.inodeAddr (h : L.Of img) (hi : i ≤ L.inodes) : inodeAddr img i = L.recordAt i := by
  have := L.extents_lt
  have := L.extentBlocks
  have := L.data_lt
  rw [FileSystem.inodeAddr, h.startInode, blockOff_of_bounds (by omega) (by omega),
    int32_of_bounds (by omega) (by omega), recordAt]
  omega

theorem Of.extentAddr (h : L.Of img) (hi : i ≤ L.inodes) : extentAddr img i = L.extentAt i := by
  have := L.extentBlocks
  have := L.data_lt
  rw [FileSystem.extentAddr, h.startExtent, blockOff_of_bounds (by omega) (by omega), extentAt]

theorem Of.dataAddr (h : L.Of img) (hb : L.data + b < 524288) :
    dataAddr img b = L.blockAt b := by
  rw [FileSystem.dataAddr, h.startData, blockOff_of_bounds (by omega) (by omega), blockAt]

/-- The layout depends on the fields of the superblock that no call writes. -/
theorem Of.congr (h : L.Of img) (same : AgreeOn img' img 16 44) : L.Of img' := by
  constructor
  · rw [← h.startInodeMap]
    exact i32_congr (same.mono (by omega) (by omega))
  · rw [← h.startDataMap]
    exact i32_congr (same.mono (by omega) (by omega))
  · rw [← h.startInode]
    exact i32_congr (same.mono (by omega) (by omega))
  · rw [← h.startExtent]
    exact i32_congr (same.mono (by omega) (by omega))
  · rw [← h.startData]
    exact i32_congr (same.mono (by omega) (by omega))
  · rw [← h.inodesCount]
    exact u32_congr (same.mono (by omega) (by omega))
  · rw [← h.blocksCount]
    exact u32_congr (same.mono (by omega) (by omega))

end Layout

end UoftOs.FileSystem
