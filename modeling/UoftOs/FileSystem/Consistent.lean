import UoftOs.FileSystem.Removing
import UoftOs.FileSystem.Tree

/-!
# Consistent images

An image is consistent when it holds a tree of nodes and both bitmaps say which
inodes and blocks the nodes use. A fresh image is consistent, and the counters do
not matter.
-/

namespace UoftOs.FileSystem

open Lib.ByteMemory Lib.NamedTree

/-- The image holds the tree, and its bitmaps agree with it. -/
structure Consistent (L : Layout) (img : Image) (nodes : Nodes) : Prop where
  tree : Tree L nodes
  hold : Holds L img nodes
  inodeBits : ∀ i < L.inodeBitCount, bitSet img L.inodeMapAt i = (nodes i).isSome
  dataBits : ∀ b < 65536,
    bitSet img L.dataMapAt b = true ↔ ∃ i nd, nodes i = some nd ∧ (b, 1) ∈ nd.extents

variable {L : Layout} {img img' : Image} {nodes : Nodes} {nd pn : Node} {i j k p b : Nat}

/-! ## Slots in one block -/

theorem Node.slotAt_one (hb : nd.extents = [(b, 1)]) (hk : k < 16) :
    nd.slotAt L k = L.blockAt b + 256 * (k : Int) := by
  have hblocks : nd.blocks = [b] := by
    rw [blocks, hb]
    rfl
  rw [slotAt, hblocks, Nat.div_eq_of_lt hk, Nat.mod_eq_of_lt hk]
  rfl

theorem Node.lastBlock_one (hb : nd.extents = [(b, 1)]) : nd.lastBlock = b := by
  rw [lastBlock, blocks, hb]
  rfl

/-- A node of a tree stands in its record, its extent and, for a directory, the entries
of its block. -/
theorem Tree.at_congr (h : Tree L nodes) (hnd : nodes i = some nd) (hat : nd.At L img i)
    (hrecord : AgreeOn img' img (L.recordAt i) (L.recordAt i + 64))
    (hextent : AgreeOn img' img (L.extentAt i) (L.extentAt i + 8))
    (hblock : sIsDir nd.mode → ∀ b, nd.extents = [(b, 1)] →
      AgreeOn img' img (L.blockAt b) (L.blockAt b + 256 * nd.entries.length)) :
    nd.At L img' i := by
  have hlen := h.length_entries hnd
  have hsmall := h.small i nd hnd
  refine hat.congr (h.ok hnd) hrecord (hextent.mono (le_refl _) ?_) ?_
  · rcases hsmall.extents with hnil | ⟨b, hone, _, _⟩
    · rw [hnil, List.length_nil]
      omega
    · rw [hone, List.length_singleton]
      omega
  · intro k hk
    have hdir : sIsDir nd.mode := by
      by_contra hfile
      rw [hsmall.file hfile] at hk
      exact absurd hk (Nat.not_lt_zero _)
    obtain ⟨b, hb, _, _⟩ := h.exists_block hnd hdir
    rw [Node.slotAt_one hb (by omega)]
    exact (hblock hdir b hb).mono (by omega) (by omega)

namespace Consistent

theorem of (h : Consistent L img nodes) : L.Of img := h.hold.of

theorem wellFormed (h : Consistent L img nodes) : WellFormed L img nodes where
  hold := h.hold
  closed := h.tree.closed
  blocks_le := h.tree.blocks_le
  last_lt := h.tree.last_lt
  inodeBits := h.inodeBits
  dataBits := by
    intro b hb
    rw [h.dataBits b hb]
    refine exists_congr fun i => exists_congr fun nd => and_congr_right fun hnd => ?_
    exact (h.tree.small i nd hnd).mem_blocks.symm
  block_lt := by
    intro i nd hnd b hb
    have hsmall := h.tree.small i nd hnd
    exact (hsmall.mem_extents (hsmall.mem_blocks.mp hb)).2.2.2
  nodup := by
    intro i nd hnd
    have hsmall := h.tree.small i nd hnd
    rw [hsmall.blocks_eq]
    rcases hsmall.extents with hnil | ⟨b, hone, _, _⟩
    · rw [hnil]
      exact List.nodup_nil
    · rw [hone]
      exact List.nodup_singleton b
  disjoint := by
    intro i j nd nd' hnd hnd' hne b hb hb'
    have he := (h.tree.small i nd hnd).mem_blocks.mp hb
    have he' := (h.tree.small j nd' hnd').mem_blocks.mp hb'
    exact hne (h.tree.apart i j nd nd' _ hnd hnd' he he')
  directory := by
    intro i nd hnd hdir
    obtain ⟨p, hat, _⟩ := h.tree.directory i nd hnd hdir
    obtain ⟨b, hb, _, _⟩ := h.tree.exists_block hnd hdir
    have hlen := h.tree.length_entries hnd
    have htwo := hat.length_entries
    have hblocks : nd.blocks.length = 1 := by
      rw [(h.tree.small i nd hnd).blocks_eq, hb]
      rfl
    omega
  size_le := by
    intro i nd hnd
    have hsmall := h.tree.small i nd hnd
    have hle := hsmall.size_le
    rwa [hsmall.blocks_eq, List.length_map]

/-- The counters do not matter. -/
theorem of_counters (h : Consistent L img nodes) (hof : L.Of img')
    (same : ∀ x, 4096 ≤ x → img' x = img x) : Consistent L img' nodes where
  tree := h.tree
  hold := (h.wellFormed.of_counters hof same).hold
  inodeBits := (h.wellFormed.of_counters hof same).inodeBits
  dataBits := by
    intro b hb
    have hge := L.dataMapAt_ge
    rw [← h.dataBits b hb, bitSet_congr (same _ (by omega))]

theorem of_setFreeBlocksCount {v : Int} (h : Consistent L img nodes) :
    Consistent L (setFreeBlocksCount img v) nodes :=
  h.of_counters h.of.setFreeBlocksCount fun _ hx => setFreeBlocksCount_apply (by omega)

theorem of_setFreeInodesCount {v : Int} (h : Consistent L img nodes) :
    Consistent L (setFreeInodesCount img v) nodes :=
  h.of_counters h.of.setFreeInodesCount fun _ hx => setFreeInodesCount_apply (by omega)

/-- A clear inode bit belongs to a free inode. -/
theorem free_of_clear (h : Consistent L img nodes) (hi : i < 8)
    (hclear : bitSet img L.inodeMapAt i = false) : nodes i = none := by
  have hbits := L.bits_ge
  rw [h.inodeBits i (by omega)] at hclear
  simpa using hclear

/-- A clear data bit belongs to a free block. -/
theorem unused_of_clear (h : Consistent L img nodes) (hb : b < 8)
    (hclear : bitSet img L.dataMapAt b = false) (hnd : nodes j = some nd) :
    (b, 1) ∉ nd.extents := by
  intro he
  rw [(h.dataBits b (by omega)).mpr ⟨j, nd, hnd, he⟩] at hclear
  cases hclear

end Consistent

/-! ## The fresh file system -/

theorem edge_fresh {name : Name} : ¬ freshNodes.Edge i name k := by
  rintro ⟨nd, hnd, he⟩
  obtain ⟨_, rfl⟩ := freshNodes_eq hnd
  exact absurd he List.not_mem_nil

theorem freshTree (hblocks : 0 < L.blocks) (hle : L.blocks ≤ 65536)
    (hlast : L.data + L.blocks < 524288) : Tree L freshNodes where
  blocks_le := hle
  last_lt := hlast
  small := by
    intro i nd hnd
    obtain ⟨rfl, rfl⟩ := freshNodes_eq hnd
    exact ⟨L.inodes_pos, by decide, .inr ⟨0, rfl, by decide, hblocks⟩, by decide,
      fun hfile => absurd (by decide) hfile⟩
  apart := by
    intro i j nd nd' e hnd hnd' _ _
    obtain ⟨rfl, _⟩ := freshNodes_eq hnd
    obtain ⟨rfl, _⟩ := freshNodes_eq hnd'
    rfl
  directory := by
    intro i nd hnd _
    obtain ⟨rfl, rfl⟩ := freshNodes_eq hnd
    exact ⟨0, ⟨rfl, rfl, rfl, List.cons_ne_nil _ _, fun _ he => absurd he List.not_mem_nil,
      List.nodup_nil⟩, .inl ⟨rfl, rfl⟩⟩
  root := ⟨rootNode, rfl, by decide⟩
  live := fun _ _ _ he => absurd he edge_fresh
  tree := ⟨fun _ _ _ _ he => absurd he edge_fresh, fun _ _ _ _ _ he => absurd he edge_fresh,
    fun _ _ => edge_fresh⟩

/-- A fresh image is consistent when its inode bitmap was zero before and every block has
an address. -/
theorem mkfs_consistent {size n : Nat} (hn : 0 < n) (h : LayoutFits size n)
    (hsize : size / 4096 < 524291)
    (hzero : ∀ x : Int, 4096 ≤ x → x < 4096 * (n / 32768 + 2 : Nat) → img x = 0) :
    Consistent (formatLayout size n hn h.1) (mkfs img size n).2 freshNodes := by
  have wf := mkfs_wellFormed hn h hsize hzero
  have hcount := formatBlocks_of_exact (exact_of_layoutFits hn h)
  have hblocks : (formatLayout size n hn h.1).blocks = formatBlocks size n := rfl
  have htree : Tree (formatLayout size n hn h.1) freshNodes := by
    refine freshTree ?_ wf.blocks_le wf.last_lt
    have hlo := h.2.1
    omega
  refine ⟨htree, wf.hold, wf.inodeBits, fun b hb => ?_⟩
  rw [wf.dataBits b hb]
  refine exists_congr fun i => exists_congr fun nd => and_congr_right fun hnd => ?_
  exact (htree.small i nd hnd).mem_blocks

end UoftOs.FileSystem
