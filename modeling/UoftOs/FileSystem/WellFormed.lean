import UoftOs.FileSystem.Calls
import UoftOs.FileSystem.Head

/-!
# Well-formed images

In a well-formed image the bitmaps say which inodes and blocks are in use, each
block belongs to one inode, and every file fits in its blocks. A tally holds the
two counters of an image and what its bitmaps count.
-/

namespace UoftOs.FileSystem

open Lib.ByteMemory

/-- The bitmaps and the nodes agree, and each block belongs to one node. -/
structure WellFormed (L : Layout) (img : Image) (nodes : Nodes) : Prop where
  hold : Holds L img nodes
  closed : Closed nodes L
  blocks_le : L.blocks ≤ 65536
  last_lt : L.data + L.blocks < 524288
  inodeBits : ∀ i < L.inodeBitCount, bitSet img L.inodeMapAt i = (nodes i).isSome
  dataBits : ∀ b < 65536,
    bitSet img L.dataMapAt b = true ↔ ∃ i nd, nodes i = some nd ∧ b ∈ nd.blocks
  block_lt : ∀ i nd, nodes i = some nd → ∀ b ∈ nd.blocks, b < L.blocks
  nodup : ∀ i nd, nodes i = some nd → nd.blocks.Nodup
  disjoint : ∀ i j nd nd', nodes i = some nd → nodes j = some nd' → i ≠ j →
    ∀ b ∈ nd.blocks, b ∉ nd'.blocks
  directory : ∀ i nd, nodes i = some nd → sIsDir nd.mode →
    2 ≤ nd.entries.length ∧ nd.blocks.length = (nd.entries.length + 15) / 16
  size_le : ∀ i nd, nodes i = some nd → nd.size ≤ 4096 * nd.blocks.length

/-- `free_blocks_count` and the data bitmap add up. -/
def BlocksBalanced (img : Image) : Prop :=
  freeBlocksCount img + setBits img (dataMapAddr img) 65536 = blocksCount img

/-- `free_inodes_count` and the inode bitmap add up. -/
def InodesBalanced (img : Image) : Prop :=
  freeInodesCount img +
    setBits img (inodeMapAddr img) (32768 * (startDataMap img - startInodeMap img).toNat) =
      inodesCount img

/-- The counters of an image and the numbers of set bits in its bitmaps. -/
structure Tally where
  freeBlocks : Nat
  usedBlocks : Nat
  freeInodes : Nat
  usedInodes : Nat

namespace Layout

variable {L : Layout} {img img' : Image} {v : Int} {i : Nat}

def tally (L : Layout) (img : Image) : Tally where
  freeBlocks := freeBlocksCount img
  usedBlocks := setBits img L.dataMapAt 65536
  freeInodes := freeInodesCount img
  usedInodes := setBits img L.inodeMapAt L.inodeBitCount

theorem tally_freeBlocks : (L.tally img).freeBlocks = freeBlocksCount img := by
  simp only [tally]

theorem tally_usedBlocks : (L.tally img).usedBlocks = setBits img L.dataMapAt 65536 := by
  simp only [tally]

theorem tally_freeInodes : (L.tally img).freeInodes = freeInodesCount img := by
  simp only [tally]

theorem tally_usedInodes :
    (L.tally img).usedInodes = setBits img L.inodeMapAt L.inodeBitCount := by
  simp only [tally]

theorem Of.blocksBalanced_iff (h : L.Of img) :
    BlocksBalanced img ↔ (L.tally img).freeBlocks + (L.tally img).usedBlocks = L.blocks := by
  simp only [BlocksBalanced, h.dataMapAddr, h.blocksCount, tally]

theorem Of.inodesBalanced_iff (h : L.Of img) :
    InodesBalanced img ↔ (L.tally img).freeInodes + (L.tally img).usedInodes = L.inodes := by
  have hbits : ((L.dataMap : Int) - L.inodeMap).toNat = L.dataMap - L.inodeMap := by omega
  simp only [InodesBalanced, h.inodeMapAddr, h.inodesCount, h.startDataMap, h.startInodeMap,
    hbits, tally, inodeBitCount]

theorem SameHead.tally (h : L.SameHead img' img) : L.tally img' = L.tally img := by
  simp only [Layout.tally, h.freeBlocksCount, h.freeInodesCount, h.dataSetBits, h.inodeSetBits]

theorem tally_setFreeBlocksCount :
    L.tally (setFreeBlocksCount img v) = { L.tally img with freeBlocks := uint32 v } := by
  have hdata : setBits (setFreeBlocksCount img v) L.dataMapAt 65536 =
      setBits img L.dataMapAt 65536 :=
    setBits_congr fun _ _ => bitSet_setFreeBlocksCount L.dataMapAt_ge
  have hinodes : setBits (setFreeBlocksCount img v) L.inodeMapAt L.inodeBitCount =
      setBits img L.inodeMapAt L.inodeBitCount :=
    setBits_congr fun _ _ => bitSet_setFreeBlocksCount L.inodeMapAt_ge
  simp only [tally, hdata, hinodes, freeBlocksCount_setFreeBlocksCount,
    freeInodesCount_setFreeBlocksCount]

theorem tally_setFreeInodesCount :
    L.tally (setFreeInodesCount img v) = { L.tally img with freeInodes := uint32 v } := by
  have hdata : setBits (setFreeInodesCount img v) L.dataMapAt 65536 =
      setBits img L.dataMapAt 65536 :=
    setBits_congr fun _ _ => bitSet_setFreeInodesCount L.dataMapAt_ge
  have hinodes : setBits (setFreeInodesCount img v) L.inodeMapAt L.inodeBitCount =
      setBits img L.inodeMapAt L.inodeBitCount :=
    setBits_congr fun _ _ => bitSet_setFreeInodesCount L.inodeMapAt_ge
  simp only [tally, hdata, hinodes, freeBlocksCount_setFreeInodesCount,
    freeInodesCount_setFreeInodesCount]

theorem tally_modify_dataMap {value : Bool} :
    L.tally (modify img L.dataMapAt i value) =
      { L.tally img with usedBlocks := setBits (modify img L.dataMapAt i value) L.dataMapAt 65536 }
      := by
  have hinodes : setBits (modify img L.dataMapAt i value) L.inodeMapAt L.inodeBitCount =
      setBits img L.inodeMapAt L.inodeBitCount :=
    setBits_congr fun _ hk => inodeBit_modify_dataMap hk
  simp only [tally, hinodes, freeBlocksCount_modify L.dataMapAt_ge,
    freeInodesCount_modify L.dataMapAt_ge]

theorem tally_modify_inodeMap {value : Bool} (hi : i < L.inodeBitCount) :
    L.tally (modify img L.inodeMapAt i value) =
      { L.tally img with
        usedInodes := setBits (modify img L.inodeMapAt i value) L.inodeMapAt L.inodeBitCount } := by
  have hdata : setBits (modify img L.inodeMapAt i value) L.dataMapAt 65536 =
      setBits img L.dataMapAt 65536 :=
    setBits_congr fun _ _ => dataBit_modify_inodeMap hi
  simp only [tally, hdata, freeBlocksCount_modify L.inodeMapAt_ge,
    freeInodesCount_modify L.inodeMapAt_ge]

theorem tally_takeBlock {img₁ : Image} {b : Nat}
    (h : takeFreeBit img L.dataMapAt = (img₁, b)) :
    L.tally img₁ =
      { L.tally img with
        usedBlocks := (L.tally img).usedBlocks + if b < 8 then 1 else 0 } := by
  rcases Nat.lt_or_ge b 8 with hlt | hge
  · obtain ⟨hleast, rfl⟩ := takeFreeBit_least h hlt
    rw [tally_modify_dataMap, setBits_modify_true (by omega) hleast.2.1, if_pos hlt]
    simp only [tally]
  · rw [takeFreeBit_eq_self h hge, if_neg (by omega), Nat.add_zero]

theorem tally_takeInode {img₁ : Image} {k : Nat}
    (h : takeFreeBit img L.inodeMapAt = (img₁, k)) :
    L.tally img₁ =
      { L.tally img with
        usedInodes := (L.tally img).usedInodes + if k < 8 then 1 else 0 } := by
  have hbits := L.bits_ge
  rcases Nat.lt_or_ge k 8 with hlt | hge
  · obtain ⟨hleast, rfl⟩ := takeFreeBit_least h hlt
    rw [tally_modify_inodeMap (by omega), setBits_modify_true (by omega) hleast.2.1, if_pos hlt]
    simp only [tally]
  · rw [takeFreeBit_eq_self h hge, if_neg (by omega), Nat.add_zero]

end Layout

namespace WellFormed

variable {L : Layout} {img : Image} {nodes : Nodes} {nd : Node} {i b k : Nat}

theorem of (wf : WellFormed L img nodes) : L.Of img := wf.hold.of

/-- The least clear inode bit is at most the number of inodes. -/
theorem clearInode_le (wf : WellFormed L img nodes) (hk : k ≤ 32768)
    (hset : ∀ j < k, bitSet img L.inodeMapAt j = true) : k ≤ L.inodes := by
  by_contra hgt
  have hlast : L.inodes < k := by omega
  have hbits := L.bits_ge
  have hbit := hset L.inodes hlast
  rw [wf.inodeBits _ (by omega)] at hbit
  obtain ⟨nd, hnd⟩ := Option.isSome_iff_exists.mp hbit
  exact absurd (wf.closed.inode_lt _ _ hnd) (lt_irrefl _)

/-- The least clear data bit is at most the number of blocks. -/
theorem clearBlock_le (wf : WellFormed L img nodes) (hk : k ≤ 32768)
    (hset : ∀ j < k, bitSet img L.dataMapAt j = true) : k ≤ L.blocks := by
  by_contra hgt
  have hlast : L.blocks < k := by omega
  obtain ⟨i, nd, hnd, hmem⟩ := (wf.dataBits L.blocks (by omega)).mp (hset _ hlast)
  exact absurd (wf.block_lt i nd hnd _ hmem) (lt_irrefl _)

theorem blockBit (wf : WellFormed L img nodes) (hnd : nodes i = some nd) (hb : b ∈ nd.blocks) :
    b < 65536 ∧ bitSet img L.dataMapAt b = true := by
  have hlt := wf.block_lt i nd hnd b hb
  have hle := wf.blocks_le
  exact ⟨by omega, (wf.dataBits b (by omega)).mpr ⟨i, nd, hnd, hb⟩⟩

theorem inodeBit (wf : WellFormed L img nodes) (hnd : nodes i = some nd) :
    i < L.inodeBitCount ∧ bitSet img L.inodeMapAt i = true := by
  have hlt := wf.closed.inode_lt i nd hnd
  have hle := L.inodes_le_bits
  refine ⟨by omega, ?_⟩
  rw [wf.inodeBits i (by omega), hnd]
  rfl

/-- A directory has a block. -/
theorem blocks_ne_nil (wf : WellFormed L img nodes) (hnd : nodes i = some nd)
    (hdir : sIsDir nd.mode) : nd.blocks ≠ [] := by
  obtain ⟨htwo, hlen⟩ := wf.directory i nd hnd hdir
  apply List.ne_nil_of_length_pos
  omega

theorem root_isDirectory (wf : WellFormed L img nodes) : IsDirectory img [slash] := by
  obtain ⟨nd, hnd, hdir⟩ := wf.closed.root
  exact isDirectory_of_resolve wf.hold wf.closed (show ∀ c ∈ ([] : List Name), _ by simp) (by decide) rfl
    hnd hdir

/-- The counters do not belong to the shape of the file system. -/
theorem of_counters {img' : Image} (wf : WellFormed L img nodes) (hof : L.Of img')
    (same : ∀ x, 4096 ≤ x → img' x = img x) : WellFormed L img' nodes := by
  have hinode := L.inodeMapAt_ge
  have hdata := L.dataMapAt_ge
  have hpos := L.head_pos
  refine { wf with
    hold := wf.hold.congr wf.closed hof fun x hx => same x (by omega)
    inodeBits := fun i hi => ?_
    dataBits := fun b hb => ?_ }
  · rw [← wf.inodeBits i hi]
    exact bitSet_congr (same _ (by omega))
  · rw [← wf.dataBits b hb, bitSet_congr (same _ (by omega))]

theorem of_setFreeBlocksCount {v : Int} (wf : WellFormed L img nodes) :
    WellFormed L (setFreeBlocksCount img v) nodes :=
  wf.of_counters wf.of.setFreeBlocksCount fun _ hx => setFreeBlocksCount_apply (by omega)

theorem of_setFreeInodesCount {v : Int} (wf : WellFormed L img nodes) :
    WellFormed L (setFreeInodesCount img v) nodes :=
  wf.of_counters wf.of.setFreeInodesCount fun _ hx => setFreeInodesCount_apply (by omega)

end WellFormed

end UoftOs.FileSystem
