import UoftOs.FileSystem.Accounting
import UoftOs.FileSystem.Runs

/-!
# Block accounting

`free_blocks_count` and the data bitmap add up after a call exactly if the call meets
its condition. `a1fs_rmdir` gives no block back to the counter, `a1fs_truncate` charges
blocks that it never takes from the data bitmap.
-/

namespace UoftOs.FileSystem

open Lib.ByteMemory

/-- The calls that keep the equation. -/
def Call.KeepsBlocks (img : Image) : Call → Prop
  | .mkdir t _ _ =>
      freeInodesCount img = 0 ∨ freeBlocksCount img = 0 ∨
        (t.path.length < 100 ∧ RoomInFirstByte img (dataMapAddr img))
  | .create t _ _ =>
      uint32 (freeInodesCount img - 1) = 0 ∨ freeBlocksCount img = 0 ∨ t.path.length < 100
  | .rmdir t _ => Leads img t.path fun i => inodeLinks img (inodeAddr img i) ≠ 2
  | .unlink t _ =>
      t.path.length < 100 ∧
        Leads img t.parent fun p => RemovalReads img (strayAddr img p) (extentAddr img p) t.name
  | .write t _ offset =>
      Leads img t.path fun i =>
        if extentCount img (inodeAddr img i) = 0 then
          Full img (dataMapAddr img) ∨
            (RoomInFirstByte img (dataMapAddr img) ∧ freeBlocksCount img ≠ 0 ∧
              GapFits img (inodeAddr img i) offset)
        else GapFits img (inodeAddr img i) offset
  | .truncate t size =>
      Leads img t.path fun i => size ≠ inodeSize img (inodeAddr img i) ∧
        (int32 (size - (inodeSize img (inodeAddr img i) % 4096 : Nat))).tdiv 4096 = -1

variable {L : Layout} {img : Image} {nodes : Nodes} {t : Target} {mode : Nat}
  {stale : Nat → UInt8} {c : Call}

namespace WellFormed

section Balanced

variable (wf : WellFormed L img nodes) (hbal : BlocksBalanced img)
include wf hbal

/-- The equation in terms of the tally. -/
theorem tally_balance : freeBlocksCount img + (L.tally img).usedBlocks = L.blocks ∧
    L.blocks ≤ 65536 := by
  have hsum := wf.of.blocksBalanced_iff.mp hbal
  rw [Layout.tally_freeBlocks] at hsum
  exact ⟨hsum, wf.blocks_le⟩

theorem mkdir_keepsBlocks (hc : (Call.mkdir t mode stale).Allowed img)
    (hfinds : (Call.mkdir t mode stale).FindsParent img) :
    (Call.mkdir t mode stale).Leaves img BlocksBalanced ↔
      (Call.mkdir t mode stale).KeepsBlocks img := by
  obtain ⟨hsum, hle⟩ := wf.tally_balance hbal
  rw [Call.KeepsBlocks, ← or_assoc]
  rcases wf.mkdir_ends hc hfinds with ⟨hfree, hrun⟩ |
    ⟨hfree, ⟨hlen, hrun⟩ | ⟨hlen, i, b, img', hrun, hof, _, hroom, htally⟩⟩
  · rw [Call.leaves_iff hrun]
    exact iff_of_true hbal (.inl hfree)
  · exact iff_of_false (Call.not_leaves hrun) fun h => hlen (h.resolve_left hfree).1
  · rw [Call.leaves_iff hrun, hof.blocksBalanced_iff, htally, wf.of.dataMapAddr, ← hroom,
      or_iff_right hfree, and_iff_right hlen]
    have hpos : freeBlocksCount img ≠ 0 := fun h => hfree (.inr h)
    have hcount : uint32 ((freeBlocksCount img : Int) - 1) = freeBlocksCount img - 1 := by
      unfold uint32
      omega
    simp only [hcount]
    split
    · omega
    · omega

theorem create_keepsBlocks (hc : (Call.create t mode stale).Allowed img)
    (hfinds : (Call.create t mode stale).FindsParent img) :
    (Call.create t mode stale).Leaves img BlocksBalanced ↔
      (Call.create t mode stale).KeepsBlocks img := by
  obtain ⟨hsum, hle⟩ := wf.tally_balance hbal
  rw [Call.KeepsBlocks, ← or_assoc]
  rcases wf.create_ends hc hfinds with ⟨hfree, hrun⟩ |
    ⟨hfree, ⟨hlen, hrun⟩ | ⟨hlen, i, img', hrun, hof, _, htally⟩⟩
  · rw [Call.leaves_iff hrun, wf.of.setFreeInodesCount.blocksBalanced_iff,
      Layout.tally_setFreeInodesCount]
    refine iff_of_true ?_ (.inl hfree)
    dsimp only
    rw [Layout.tally_freeBlocks, hsum]
  · exact iff_of_false (Call.not_leaves hrun) fun h => hlen (h.resolve_left hfree)
  · rw [Call.leaves_iff hrun, hof.blocksBalanced_iff, htally]
    refine iff_of_true ?_ (.inr hlen)
    dsimp only
    rw [Layout.tally_freeBlocks, hsum]

theorem rmdir_keepsBlocks (hc : (Call.rmdir t stale).Allowed img)
    (hfinds : (Call.rmdir t stale).FindsParent img) :
    (Call.rmdir t stale).Leaves img BlocksBalanced ↔ (Call.rmdir t stale).KeepsBlocks img := by
  obtain ⟨hsum, hle⟩ := wf.tally_balance hbal
  rw [Call.KeepsBlocks]
  rcases wf.rmdir_ends hc hfinds with ⟨hlinks, hrun⟩ |
    ⟨hlinks, ⟨_, f, hrun⟩ | ⟨_, k, img', hk, hrun, hof, hfree, hused, _, _⟩⟩
  · rw [Call.leaves_iff hrun]
    exact iff_of_true hbal hlinks
  · exact iff_of_false (Call.not_leaves hrun) hlinks
  · refine iff_of_false ?_ hlinks
    rw [Call.leaves_iff hrun, hof.blocksBalanced_iff]
    omega

theorem unlink_keepsBlocks (hc : (Call.unlink t stale).Allowed img)
    (hfinds : (Call.unlink t stale).FindsParent img) :
    (Call.unlink t stale).Leaves img BlocksBalanced ↔ (Call.unlink t stale).KeepsBlocks img := by
  obtain ⟨hsum, hle⟩ := wf.tally_balance hbal
  rw [Call.KeepsBlocks]
  rcases wf.unlink_ends hc hfinds with ⟨hfault, f, hrun⟩ |
    ⟨hreads, k, img', hrun, hof, hfree, hused, _, _⟩
  · exact iff_of_false (Call.not_leaves hrun) hfault
  · have hcount : uint32 ((freeBlocksCount img : Int) + k) = freeBlocksCount img + k := by
      unfold uint32
      omega
    rw [Call.leaves_iff hrun, hof.blocksBalanced_iff]
    exact iff_of_true (by omega) hreads

theorem write_keepsBlocks {buf : List UInt8} {offset : Nat}
    (hc : (Call.write t buf offset).Allowed img) :
    (Call.write t buf offset).Leaves img BlocksBalanced ↔
      (Call.write t buf offset).KeepsBlocks img := by
  obtain ⟨hsum, hle⟩ := wf.tally_balance hbal
  obtain ⟨i, hpath, hlt, hends⟩ := wf.write_ends hc
  rw [Call.KeepsBlocks, leads_iff hpath, wf.of.inodeAddr hlt.le, wf.of.dataMapAddr]
  rcases hends with ⟨hzero, hfull, hrun⟩ | ⟨hroom, hgap, f, hrun⟩ |
    ⟨hgap, img', hrun, hof, ⟨hne, htally⟩ | ⟨hzero, k, hleast, htally⟩⟩
  · rw [Call.leaves_iff hrun, if_pos hzero]
    exact iff_of_true hbal (.inl hfull)
  · refine iff_of_false (Call.not_leaves hrun) ?_
    by_cases hzero : extentCount img (L.recordAt i) = 0
    · rw [if_pos hzero]
      rintro (hfull | ⟨_, _, hfits⟩)
      · exact hroom ⟨hzero, hfull⟩
      · exact hgap hfits
    · rw [if_neg hzero]
      exact hgap
  · rw [Call.leaves_iff hrun, hof.blocksBalanced_iff, htally, Layout.tally_freeBlocks, if_neg hne]
    exact iff_of_true hsum hgap
  · have hnot : ¬ Full img L.dataMapAt := fun hfull => by
      simpa [hleast.2.1] using hfull k hleast.1
    have hlt' : freeBlocksCount img < 4294967296 := load_lt
    rw [Call.leaves_iff hrun, hof.blocksBalanced_iff, htally, if_pos hzero, or_iff_right hnot,
      ← hleast.room]
    simp only [hgap, and_true]
    have hwrap : uint32 ((freeBlocksCount img : Int) - 1) =
        if freeBlocksCount img = 0 then 4294967295 else freeBlocksCount img - 1 := by
      unfold uint32
      split <;> omega
    rw [hwrap]
    by_cases hk : k < 8
    · rw [if_pos hk]
      split <;> omega
    · rw [if_neg hk]
      split <;> omega

theorem truncate_keepsBlocks {size : Nat} (hc : (Call.truncate t size).Allowed img) :
    (Call.truncate t size).Leaves img BlocksBalanced ↔
      (Call.truncate t size).KeepsBlocks img := by
  obtain ⟨i, nd, hi, hnd, _⟩ := IsFile.node wf.hold wf.closed t.component t.length_lt hc.1
  obtain ⟨hsum, hle⟩ := wf.tally_balance hbal
  have hlt := wf.closed.inode_lt i nd hnd
  rw [Call.KeepsBlocks, leads_iff (pathInode_target wf hi), wf.of.inodeAddr hlt.le,
    (wf.hold.nodeAt i nd hnd).size]
  by_cases hsize : size = nd.size
  · obtain ⟨img', hrun, hof, hfree, hused, _⟩ := wf.truncate_same_tally hi hnd hsize
    have hrun' : (Call.truncate t size).run img = .ok (0, img') := hrun
    rw [Call.leaves_iff hrun', hof.blocksBalanced_iff, hfree]
    refine iff_of_false ?_ fun h => h.1 hsize
    have hlen := wf.length_blocks_le hnd
    have hfit := wf.size_le i nd hnd
    have hnew : int32 ((size : Int) - (nd.size % 4096 : Nat)) = size - (nd.size % 4096 : Nat) :=
      int32_of_bounds (by omega) (by omega)
    rw [hnew, Int.tdiv_eq_ediv_of_nonneg (by omega), uint32]
    omega
  · obtain ⟨img', hrun, hof, hfree, hused, _⟩ := wf.truncate_other_tally hi hnd hsize
    have hrun' : (Call.truncate t size).run img = .ok (0, img') := hrun
    rw [Call.leaves_iff hrun', hof.blocksBalanced_iff, hfree, hused, and_iff_right hsize]
    have hcount : freeBlocksCount img < 4294967296 := load_lt
    obtain ⟨hlo, hhi⟩ := int32_bounds ((size : Int) - (nd.size % 4096 : Nat))
    obtain ⟨hqlo, hqhi⟩ := tdiv_block_bounds hlo hhi
    obtain ⟨q, hq⟩ : ∃ q, (int32 ((size : Int) - (nd.size % 4096 : Nat))).tdiv 4096 = q := ⟨_, rfl⟩
    rw [hq] at hqlo hqhi
    rw [hq]
    unfold uint32
    omega

end Balanced

/-- A call that finds the parent in its path keeps the equation exactly if it meets the
condition. -/
theorem blocks_accounting (wf : WellFormed L img nodes) (hbal : BlocksBalanced img)
    (hc : c.Allowed img) :
    (c.FindsParent img ∧ c.KeepsBlocks img → c.Leaves img BlocksBalanced) ∧
      (c.FindsParent img → c.Leaves img BlocksBalanced → c.KeepsBlocks img) := by
  have hiff : c.FindsParent img → (c.Leaves img BlocksBalanced ↔ c.KeepsBlocks img) := by
    intro hfinds
    cases c with
    | mkdir t mode stale => exact wf.mkdir_keepsBlocks hbal hc hfinds
    | create t mode stale => exact wf.create_keepsBlocks hbal hc hfinds
    | rmdir t stale => exact wf.rmdir_keepsBlocks hbal hc hfinds
    | unlink t stale => exact wf.unlink_keepsBlocks hbal hc hfinds
    | write t buf offset => exact wf.write_keepsBlocks hbal hc
    | truncate t size => exact wf.truncate_keepsBlocks hbal hc
  exact ⟨fun h => (hiff h.1).mpr h.2, fun h => (hiff h).mp⟩

/-- `a1fs_create` of the file `"/f"` on the fresh image. -/
theorem blocks_accounting_create :
    (createFile.FindsParent (balancedImage 32) ∧ createFile.KeepsBlocks (balancedImage 32) →
      createFile.Leaves (balancedImage 32) BlocksBalanced) ∧
    (createFile.FindsParent (balancedImage 32) →
      createFile.Leaves (balancedImage 32) BlocksBalanced →
        createFile.KeepsBlocks (balancedImage 32)) :=
  blocks_accounting (balancedImage_wellFormed (by decide) (by decide))
    (balancedImage_blocks (by decide) (by decide)).1
    (fresh_allows_create (balancedImage_wellFormed (by decide) (by decide)) (by decide) (by decide))

end WellFormed

/-! ## A file that is extended -/

/-- Only the block of the root directory is in use next to an empty file. -/
theorem Consistent.fileNodes_balanced {img : Image} (h : Consistent smallLayout img fileNodes) :
    ∃ v : Int, BlocksBalanced (setFreeBlocksCount img v) := by
  have hused : setBits img smallLayout.dataMapAt 65536 = 1 := by
    refine setBits_start (by decide) fun b hb => ?_
    rw [Bool.eq_iff_iff, h.dataBits b hb, decide_eq_true_iff]
    constructor
    · rintro ⟨i, nd, hnd, he⟩
      exact congrArg Prod.fst (mem_fileNodes_extents hnd he)
    · rintro rfl
      exact ⟨0, _, Nodes.linked_parent (by decide), List.mem_singleton_self _⟩
  have hblocks : 1 ≤ smallLayout.blocks ∧ smallLayout.blocks < 4294967296 := by decide
  refine ⟨(smallLayout.blocks : Int) - 1, ?_⟩
  have hcons := h.of_setFreeBlocksCount (v := (smallLayout.blocks : Int) - 1)
  rw [hcons.of.blocksBalanced_iff, Layout.tally_freeBlocks, Layout.tally_usedBlocks,
    freeBlocksCount_setFreeBlocksCount, setBits_congr fun b _ =>
      bitSet_setFreeBlocksCount smallLayout.dataMapAt_ge, hused]
  unfold uint32
  omega

/-- `a1fs_truncate` of the empty file to one byte charges a block that it does not take
from the data bitmap. -/
theorem truncate_unbalances_blocks :
    ¬ ∀ (L : Layout) (img : Image) (nodes : Nodes) (c : Call), WellFormed L img nodes →
      BlocksBalanced img → c.Allowed img → c.Leaves img BlocksBalanced := by
  intro hclaim
  obtain ⟨img, _, _, hfile⟩ := createFile_run
  obtain ⟨v, hbal⟩ := hfile.fileNodes_balanced
  have hcons := hfile.of_setFreeBlocksCount (v := v)
  have hallowed : (Call.truncate fileTarget 1).Allowed (setFreeBlocksCount img v) :=
    ⟨hcons.fileNodes_isFile, by decide⟩
  have hpath := WellFormed.pathInode_target hcons.wellFormed fileNodes_resolve
  have hat := hcons.hold.nodeAt 1 _
    (show fileNodes 1 = some (Node.emptyFile 0o100644) from rfl)
  have hsize : inodeSize (setFreeBlocksCount img v) (smallLayout.recordAt 1) = 0 := hat.size
  have hkeeps := (hcons.wellFormed.truncate_keepsBlocks hbal hallowed).mp
    (hclaim _ _ _ _ hcons.wellFormed hbal hallowed)
  rw [Call.KeepsBlocks, leads_iff hpath, hcons.of.inodeAddr (by decide), hsize] at hkeeps
  exact absurd hkeeps.2 (by decide)

end UoftOs.FileSystem
