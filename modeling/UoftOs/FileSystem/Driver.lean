import UoftOs.FileSystem.Bitmap
import UoftOs.FileSystem.Paths

/-!
# The calls of the a1fs driver

Every call takes the image and returns its result with the new image. Pointers
are computed where the source computes them, and the superblock and the records
are read again at each use.

## Implementation notes

`sb.x` on the superblock pointer in `a1fs_mkdir` is read as `sb->x`. A loop whose
bound is read from the image is given `intRange` rounds, more than an `int`
counter can make. The unwritten part of the buffer `parent_path` is the parameter
`stale`.
-/

namespace UoftOs.FileSystem

open Lib.ByteMemory

/-- The number of values of a counter from 0 on. -/
def intRange : Nat := 2147483648

/-! ## `a1fs_getattr` -/

/-- The fields of `struct stat` that the driver fills in. -/
structure Stat where
  ino : Int
  mode : Nat
  nlink : Nat
  size : Nat
  blocks : Int
  deriving DecidableEq

/-- `memset(st, 0, sizeof(*st))`. -/
def Stat.zero : Stat := ⟨0, 0, 0, 0, 0⟩

/-- `a1fs_getattr`. -/
def a1fsGetattr (img : Image) (path : Path) : Except Fault (Int × Stat) :=
  if 4096 ≤ path.length then .ok (-enametoolong, Stat.zero)
  else do
    let inode ← pathInode img path
    if inode = -enoent then .ok (-enoent, Stat.zero)
    else if inode = -enotdir then .ok (-enotdir, Stat.zero)
    else if 0 ≤ inode then
      let found := inodeAddr img inode
      let eBlock := extentAddr img inode
      let blockCount := (List.range (extentCount img found).toNat).foldl
        (fun count (i : Nat) => int32 (count + extentLength img eBlock i)) 0
      .ok (0, ⟨inode, inodeMode img found, inodeLinks img found, inodeSize img found,
        (int32 (blockCount * 4096)).tdiv 512⟩)
    else .ok (-enosys, Stat.zero)

/-! ## New entries -/

/-- The record of a new inode. -/
def initInode (img : Image) (ino : Nat) (mode links size extents : Nat) : Image :=
  let newIno := inodeAddr img ino
  let img := setMode img newIno mode
  let img := setLinks img newIno links
  let img := setSize img newIno size
  let img := setInoNumber img newIno ino
  setExtentCount img newIno extents

/-- An entry in the directory slot at `d`. -/
def putDentry (img : Image) (d ino : Int) (name : Name) : Image :=
  setDentryName (setDentryIno img d ino) d name

/-- The slot behind the last entry of a directory: the last block of its last
extent at the offset `byteMore`. -/
def appendSlot (img : Image) (parentBlock extents byteMore : Int) : Int :=
  let appendInd := int32 (extentStart img parentBlock (extents - 1))
  let extentNum := int32 (extentLength img parentBlock (extents - 1))
  blockOff (startData img + appendInd + extentNum - 1) + byteMore

/-- `a1fs_mkdir` from the update of the parent on. -/
def linkDirectory (img : Image) (parentIno : Int) (name : Name) (mode ino block : Nat) : Image :=
  let parent := inodeAddr img parentIno
  let parentBlock := extentAddr img parentIno
  let extents := extentCount img parent
  let byteMore : Int := (inodeSize img parent % 4096 : Nat)
  let slot := appendSlot img parentBlock extents byteMore
  let img := setSize img parent (inodeSize img parent + 256)
  let img := setLinks img parent (inodeLinks img parent + 1)
  let newExtent := extentAddr img ino
  let img := setExtentStart img newExtent 0 block
  let img := setExtentLength img newExtent 0 1
  let img := initInode img ino mode 2 512 1
  let newEntry := dataAddr img block
  let img := putDentry img newEntry ino dot
  let img := putDentry img (newEntry + 256) parentIno dotDot
  let img := putDentry img slot ino name
  let img := setFreeBlocksCount img (freeBlocksCount img - 1)
  setFreeInodesCount img (freeInodesCount img - 1)

/-- `a1fs_mkdir`. -/
def a1fsMkdir (img : Image) (path : Path) (mode : Nat) (stale : Nat → UInt8) :
    Except Fault (Int × Image) :=
  let mode := mode ||| sIfDir
  if freeInodesCount img = 0 ∨ freeBlocksCount img = 0 then .ok (-enomem, img)
  else do
    let inodes := takeFreeBit img (inodeMapAddr img)
    let blocks := takeFreeBit inodes.1 (dataMapAddr inodes.1)
    let (parentIno, newDr) ← newEntryParent blocks.1 stale path
    .ok (0, linkDirectory blocks.1 parentIno newDr mode inodes.2 blocks.2)

/-- `a1fs_create` from the update of the parent on. -/
def linkFile (img : Image) (parentIno : Int) (name : Name) (mode ino : Nat) : Image :=
  let parent := inodeAddr img parentIno
  let parentBlock := extentAddr img parentIno
  let extents := extentCount img parent
  let byteMore : Int := (inodeSize img parent % 4096 : Nat)
  let slot := appendSlot img parentBlock extents byteMore
  let img := setLinks img parent (inodeLinks img parent + 1)
  let img := setSize img parent (inodeSize img parent + 256)
  let img := initInode img ino mode 1 0 0
  putDentry img slot ino name

/-- `a1fs_create`. -/
def a1fsCreate (img : Image) (path : Path) (mode : Nat) (stale : Nat → UInt8) :
    Except Fault (Int × Image) :=
  if sIsReg mode then
    let img := setFreeInodesCount img (freeInodesCount img - 1)
    if freeInodesCount img = 0 ∨ freeBlocksCount img = 0 then .ok (-enomem, img)
    else do
      let inodes := takeFreeBit img (inodeMapAddr img)
      let (parentIno, newDr) ← newEntryParent inodes.1 stale path
      .ok (0, linkFile inodes.1 parentIno newDr mode inodes.2)
  else .error .assertion

/-! ## Removed entries -/

/-- Clear the data bits of the blocks of one extent, with `after` behind each. -/
def releaseExtent (img : Image) (dataMap e i : Int) (after : Image → Image) : Image :=
  (extentBlocks img e i).foldl (fun img m => after (modify img dataMap m false)) img

/-- The loop over the extents of the inode record at `p`. -/
def releaseExtents (p e dataMap : Int) (after : Image → Image) : Nat → Nat → Image → Image
  | 0, _, img => img
  | fuel + 1, i, img =>
      if (i : Int) < extentCount img p then
        releaseExtents p e dataMap after fuel (i + 1) (releaseExtent img dataMap e i after)
      else img

/-- The slots of the directory whose inode record is at `parent`, each with its
position in the block. -/
def numberedSlots (img : Image) (parent e : Int) : List (Int × Nat) :=
  (fileBlocks img e (extentCount img parent)).flatMap fun j =>
    (List.range 16).map fun (x : Nat) => (dataAddr img j + 256 * x, x)

/-- `num_last_entry`. -/
def numLastEntry (img : Image) (parent : Int) : Int :=
  int32 (inodeSize img parent / 256 % 16 : Nat)

/-- The slot of `lastdr`. -/
def lastSlot (img : Image) (parent e : Int) : Int :=
  let last := extentCount img parent - 1
  blockOffUnsigned (startData img + extentStart img e last + extentLength img e last - 1) +
    (numLastEntry img parent - 1) * 256

/-- The copy of the last entry to the slot at `d`. -/
def closeGap (img : Image) (parent e d : Int) : Except Fault Image :=
  let lastdr := lastSlot img parent e
  match cstr (bytesAt img (lastdr + 4) 252) with
  | none => .error .unterminated
  | some lastName =>
      let img := setDentryName img d lastName
      .ok (setDentryIno img d (dentryIno img lastdr))

/-- The first slot with the given name. -/
def findSlot (img : Image) (parent e : Int) (name : Name) : Option (Int × Nat) :=
  (numberedSlots img parent e).find? fun slot => StringAt img (slot.1 + 4) name

/-- The loop that removes the entry `name` from its directory: the last entry takes
its slot. It also tells whether the name was found. -/
def removeDentry (img : Image) (parent e : Int) (name : Name) : Except Fault (Image × Bool) :=
  (findSlot img parent e name).elim (.ok (img, false)) fun slot => do
    let img ←
      if (slot.2 : Int) = numLastEntry img parent - 1 then .ok img
      else closeGap img parent e slot.1
    .ok (setSize img parent (inodeSize img parent - 256), true)

/-- `a1fs_rmdir`. -/
def a1fsRmdir (img : Image) (path : Path) (stale : Nat → UInt8) : Except Fault (Int × Image) :=
  if path = [slash] then .error .assertion
  else do
    let drIno ← pathInode img path
    let currentIno := inodeAddr img drIno
    if inodeLinks img currentIno ≠ 2 then .ok (-enotempty, img)
    else
      let dataBitmap := dataMapAddr img
      let img := modify img (inodeMapAddr img) drIno false
      let img := setFreeInodesCount img (freeInodesCount img + 1)
      let img := releaseExtents currentIno (extentAddr img drIno) dataBitmap id intRange 0 img
      let (parentIno, newDr) ← oldEntryParent img stale path
      let parent := inodeAddr img parentIno
      let (img, found) ← removeDentry img parent (extentAddr img parentIno) newDr
      .ok (0, if found then setLinks img parent (inodeLinks img parent - 1) else img)

/-- `a1fs_unlink`. The parent's record is looked for `parentIno` blocks behind the
start of the inode table. -/
def a1fsUnlink (img : Image) (path : Path) (stale : Nat → UInt8) :
    Except Fault (Int × Image) := do
  let fileIno ← pathInode img path
  let fileInode := inodeAddr img fileIno
  let img := modify img (inodeMapAddr img) fileIno false
  let img := setFreeInodesCount img (freeInodesCount img + 1)
  let img := releaseExtents fileInode (extentAddr img fileIno) (dataMapAddr img)
    (fun img => setFreeBlocksCount img (freeBlocksCount img + 1)) intRange 0 img
  let (parentIno, newDr) ← oldEntryParent img stale path
  let parent := blockOff (startInode img + parentIno)
  let eBlock := extentAddr img parentIno
  let img := setLinks img parent (inodeLinks img parent - 1)
  let (img, _) ← removeDentry img parent eBlock newDr
  .ok (0, img)

/-! ## File contents -/

/-- `update_extent`. -/
def updateExtent (img : Image) (ino index : Int) : Image :=
  let root := inodeAddr img ino
  let eBlock := extentAddr img (inoNumber img root)
  let adjacent := (List.range (extentCount img root).toNat).find? fun (i : Nat) =>
    int32 (int32 (extentStart img eBlock i) + int32 (extentLength img eBlock i)) = index
  let appended :=
    let img := setExtentStart img eBlock (extentCount img root) index
    let img := setExtentLength img eBlock (extentCount img root) 1
    setExtentCount img root 1
  adjacent.elim appended fun i =>
    setExtentLength img eBlock i (extentLength img eBlock i + 1)

/-- The block behind the last extent of the inode record at `p`, where `write` and
`truncate` go when the file has extents. -/
def behindLastExtent (img : Image) (p e : Int) : Int :=
  let last := extentCount img p - 1
  int32 (extentStart img e last + extentLength img e last)

/-- One round of the growth loop of `a1fs_truncate`. It takes its block from the inode
bitmap. -/
def growBlock (inodeNum inodeBm : Int) (img : Image) : Image :=
  let index := findNextBit img inodeBm
  let img := modify img inodeBm index true
  let img := updateExtent img inodeNum index
  fill img (dataAddr img index) 0 4096

/-- The growth loop of `a1fs_truncate`. -/
def growFile (inodeNum inodeBm : Int) (blockCount : Nat) (img : Image) : Image :=
  (List.range blockCount).foldl (fun img _ => growBlock inodeNum inodeBm img) img

/-- The state of the shrinking loop of `a1fs_truncate` over the blocks of one extent. -/
structure Shrink where
  img : Image
  w : Int
  result1 : Int
  result2 : Int

/-- One round of the inner loop of the shrinking branch, for block `j` of the extent `i`. -/
def shrinkBlock (total dataBitmap e : Int) (i : Nat) (start : Int) (s : Shrink) (j : Int) :
    Shrink :=
  let s := if s.w = total then
      { s with img := setExtentLength s.img e i (j - start + 1), result1 := i,
               result2 := int32 (j - start + 1) }
    else s
  let s := if total < s.w then { s with img := modify s.img dataBitmap j false } else s
  { s with w := int32 (s.w + 1) }

/-- The inner loop of the shrinking branch, for extent `i` of the block `e`. -/
def shrinkExtent (total dataBitmap e : Int) (i : Nat) (s : Shrink) : Shrink :=
  (extentBlocks s.img e i).foldl
    (shrinkBlock total dataBitmap e i (int32 (extentStart s.img e i))) s

/-- The outer loop of the shrinking branch. It assigns the extent count it runs to. -/
def shrinkExtents (p e total dataBitmap : Int) : Nat → Nat → Shrink → Shrink
  | 0, _, s => s
  | fuel + 1, i, s =>
      if (i : Int) < extentCount s.img p then
        let s := shrinkExtent total dataBitmap e i s
        let img := setExtentCount s.img p s.result1
        let img := setExtentLength img e i s.result2
        shrinkExtents p e total dataBitmap fuel (i + 1) { s with img := img }
      else s

/-- `a1fs_truncate`. The comparison of `size - inode->size` with 0 is unsigned. -/
def a1fsTruncate (img : Image) (path : Path) (size : Nat) : Except Fault (Int × Image) := do
  let inodeNum ← pathInode img path
  let inodeBm := inodeMapAddr img
  let inode := inodeAddr img inodeNum
  let newSize := int32 (size - (inodeSize img inode % 4096 : Nat))
  let img := setFreeBlocksCount img (freeBlocksCount img - (newSize.tdiv 4096 + 1))
  let blockCount := newSize.tdiv 4096
  let byteMore : Int := (inodeSize img inode % 4096 : Nat)
  let eBlock := extentAddr img inodeNum
  let found :=
    if extentCount img inode = 0 then
      let lastExtent := findNextBit img inodeBm
      let img := modify img inodeBm lastExtent true
      (updateExtent img inodeNum lastExtent, lastExtent)
    else (img, behindLastExtent img inode eBlock)
  let img := found.1
  let img :=
    if size ≠ inodeSize img inode then
      let img := fill img (dataAddr img found.2 + byteMore) 0 (4096 - inodeSize img inode % 4096)
      growFile inodeNum inodeBm blockCount.toNat img
    else
      let total := int32 (size / 4096 : Nat)
      (shrinkExtents inode eBlock total (dataMapAddr img) intRange 0
        ⟨img, 0, extentCount img inode, int32 (extentLength img eBlock 0)⟩).img
  .ok (0, setSize img inode size)

/-- The loop of `a1fs_read`: the start of the extent that the block number falls
into, or of the last one. Without extents it is not initialized. -/
def readExtent (img : Image) (e blockFront : Int) : List Nat → Int → Option Int → Option Int
  | [], _, start => start
  | i :: is, blocks, _ =>
      let start := int32 (extentStart img e i)
      let count := int32 (extentLength img e i)
      if blockFront < int32 (blocks + count) then some start
      else readExtent img e blockFront is (int32 (blocks + count)) (some start)

/-- `a1fs_read`: the result and the bytes copied to `buf`. -/
def a1fsRead (img : Image) (path : Path) (size offset : Nat) :
    Except Fault (Int × List UInt8) := do
  let fileInd ← pathInode img path
  let fileIno := inodeAddr img fileInd
  let eBlock := extentAddr img fileInd
  let fileSize := int32 (inodeSize img fileIno)
  if fileSize < offset then .ok (0, [])
  else
    let blockFront := int32 (offset / 4096 : Nat)
    let beginByte := offset % 4096
    let start := readExtent img eBlock blockFront (List.range (extentCount img fileIno).toNat) 0 none
    start.elim (.error .uninitialized) fun start =>
      .ok (int32 size, bytesAt img (dataAddr img start + beginByte) size)

/-- The stores of `a1fs_write` into the block `writeTo`, and the new size. -/
def writeInto (img : Image) (inode writeTo : Int) (buf : List UInt8) (offset : Nat) :
    Except Fault Image :=
  let oriSize := int32 (inodeSize img inode)
  if oriSize < offset then
    let byteMore := int32 (offset - oriSize)
    if byteMore < 0 then .error .overflow
    else
      let img := fill img (dataAddr img writeTo + oriSize) 0 byteMore.toNat
      let img := store img (dataAddr img writeTo + offset) buf
      .ok (setSize img inode (oriSize + buf.length + offset))
  else
    let img := store img (dataAddr img writeTo + offset) buf
    let modifySize := int32 (offset + buf.length)
    .ok (if oriSize < modifySize then setSize img inode (offset + buf.length) else img)

/-- The first data block of a file without extents. -/
def giveFirstBlock (img : Image) (inode eBlock dataBm writeTo : Int) : Image :=
  let img := modify img dataBm writeTo true
  let img := setExtentStart img eBlock 0 writeTo
  let img := setExtentLength img eBlock 0 1
  let img := setExtentCount img inode 1
  setFreeBlocksCount img (freeBlocksCount img - 1)

/-- `a1fs_write`. -/
def a1fsWrite (img : Image) (path : Path) (buf : List UInt8) (offset : Nat) :
    Except Fault (Int × Image) := do
  let inodeNum ← pathInode img path
  let dataBm := dataMapAddr img
  let inode := inodeAddr img inodeNum
  let eBlock := extentAddr img inodeNum
  if extentCount img inode = 0 then
    let writeTo := findNextBit img dataBm
    if writeTo = -1 then .ok (-enospc, img)
    else
      (writeInto (giveFirstBlock img inode eBlock dataBm writeTo) inode writeTo buf offset).map
        fun img => (int32 buf.length, img)
  else
    (writeInto img inode (behindLastExtent img inode eBlock) buf offset).map
      fun img => (int32 buf.length, img)

end UoftOs.FileSystem
