import Mathlib.Algebra.Order.Ring.Int
import UoftOs.FileSystem.Attributes

/-!
# The counters that statfs reports

`a1fs_statfs` reports the two counters of the superblock. They start one too high, since
`mkfs` decrements its copy after it was stored, and drift further apart from the bitmaps
with the calls that change one without the other. Over runs of safe calls the distance is
what these calls have added up to.
-/

namespace UoftOs.FileSystem

open Lib.ByteMemory Lib.NamedTree Lib.Transition

/-- The fields of `struct statvfs` that the driver fills in. -/
structure Statvfs where
  bsize : Nat
  frsize : Nat
  blocks : Nat
  bfree : Nat
  bavail : Nat
  files : Nat
  ffree : Nat
  favail : Nat
  namemax : Nat
  deriving DecidableEq

/-- `a1fs_statfs`. The size is that of the mapped file. -/
def a1fsStatfs (img : Image) (size : Nat) : Int × Statvfs :=
  (0, ⟨4096, 4096, size / 4096, freeBlocksCount img, freeBlocksCount img, inodesCount img,
    freeInodesCount img, freeInodesCount img, 252⟩)

/-- The inodes that are marked. -/
def usedInodes (img : Image) : Nat := setBits img (inodeMapAddr img) (inodeBits img)

/-- The data blocks that are marked. -/
def usedBlocks (img : Image) : Nat := setBits img (dataMapAddr img) 65536

/-- The inodes that a call takes from the counter and does not mark. -/
def Call.lostInodes (r : Int) : Call → Int
  | .create .. => if r = 0 then 0 else 1
  | _ => 0

/-- The blocks that a call takes from the counter and does not mark, or unmarks and does
not give back to the counter. -/
def Call.lostBlocks (img : Image) (r : Int) : Call → Int
  | .rmdir .. => if r = 0 then 1 else 0
  | .truncate t size =>
      match pathInode img t.path with
      | .ok i => (int32 (size - (inodeSize img (inodeAddr img i) % 4096 : Nat))).tdiv 4096 + 1
      | .error _ => 0
  | _ => 0

/-- A call with its answer and the blocks it loses. -/
structure Charged where
  call : Call
  answer : Int
  blocks : Int

/-- A call on the image, with what it loses. -/
def Charges (img : Image) (a : Charged) (img' : Image) : Prop :=
  a.call.Allowed img ∧ a.call.run img = .ok (a.answer, img') ∧
    a.call.lostBlocks img a.answer = a.blocks

/-- Runs of safe calls with what they lose. -/
abbrev ChargedRun (img : Image) (log : List Charged) (img' : Image) : Prop :=
  Run (Guarded Charges fun img a => a.call.Safe img) img log img'

/-- The inodes that the calls have lost. -/
def lostInodes (log : List Charged) : Int := (log.map fun a => a.call.lostInodes a.answer).sum

/-- The blocks that the calls have lost. -/
def lostBlocks (log : List Charged) : Int := (log.map Charged.blocks).sum

/-- Counters and bitmaps together have lost so many inodes and blocks. The counters are
`unsigned int`s. -/
structure Loses (img img' : Image) (inodes blocks : Int) : Prop where
  inodes : (freeInodesCount img' + usedInodes img' + inodes) % 4294967296 =
    (freeInodesCount img + usedInodes img : Int) % 4294967296
  blocks : (freeBlocksCount img' + usedBlocks img' + blocks) % 4294967296 =
    (freeBlocksCount img + usedBlocks img : Int) % 4294967296

variable {L : Layout} {img img' img₁ : Image} {nodes nodes' : Nodes} {nd : Node} {i size n : Nat}
  {t : Target} {mode : Nat} {stale : Nat → UInt8} {c : Call} {r : Int} {log : List Charged}
  {buf : List UInt8} {offset : Nat}

theorem Loses.refl (img : Image) : Loses img img 0 0 := ⟨by rw [add_zero], by rw [add_zero]⟩

theorem Loses.trans {inodes blocks inodes' blocks' : Int} (h : Loses img img₁ inodes blocks)
    (h' : Loses img₁ img' inodes' blocks') :
    Loses img img' (inodes + inodes') (blocks + blocks') := by
  have hinodes := h.inodes
  have hinodes' := h'.inodes
  have hblocks := h.blocks
  have hblocks' := h'.blocks
  constructor <;> omega

/-! ## One call -/

theorem Layout.Of.usedInodes (hof : L.Of img) :
    FileSystem.usedInodes img = (L.tally img).usedInodes := by
  have hlt := L.inodeMap_lt
  have hbits : FileSystem.inodeBits img = L.inodeBitCount := by
    rw [FileSystem.inodeBits, hof.startDataMap, hof.startInodeMap, Layout.inodeBitCount]
    omega
  rw [FileSystem.usedInodes, hof.inodeMapAddr, hbits, Layout.tally_usedInodes]

theorem Layout.Of.usedBlocks (hof : L.Of img) :
    FileSystem.usedBlocks img = (L.tally img).usedBlocks := by
  rw [FileSystem.usedBlocks, hof.dataMapAddr, Layout.tally_usedBlocks]

/-- What is lost, by the tallies. -/
theorem loses_of_tally {inodes blocks : Int} (hof : L.Of img) (hof' : L.Of img')
    (hinodes : ((L.tally img').freeInodes + (L.tally img').usedInodes + inodes) % 4294967296 =
      ((L.tally img).freeInodes + (L.tally img).usedInodes : Int) % 4294967296)
    (hblocks : ((L.tally img').freeBlocks + (L.tally img').usedBlocks + blocks) % 4294967296 =
      ((L.tally img).freeBlocks + (L.tally img).usedBlocks : Int) % 4294967296) :
    Loses img img' inodes blocks where
  inodes := by
    rw [hof.usedInodes, hof'.usedInodes]
    exact hinodes
  blocks := by
    rw [hof.usedBlocks, hof'.usedBlocks]
    exact hblocks

namespace Consistent

variable (h : Consistent L img nodes)
include h

theorem mkdir_loses (hc : (Call.mkdir t mode stale).Allowed img)
    (hsafe : (Call.mkdir t mode stale).Safe img)
    (hrun : (Call.mkdir t mode stale).run img = .ok (r, img')) :
    Loses img img' ((Call.mkdir t mode stale).lostInodes r) ((Call.mkdir t mode stale).lostBlocks img r) := by
  have hfinds : (Call.mkdir t mode stale).FindsParent img :=
    or_assoc.mp (hsafe.imp_right fun hroom => hroom.2.1)
  rcases h.wellFormed.mkdir_ends hc hfinds with ⟨_, hend⟩ |
    ⟨hfree, ⟨_, hend⟩ | ⟨_, i, b, img₁, hend, hof, hi, hb, htally⟩⟩
  · cases hend.symm.trans hrun
    exact .refl img
  · cases hend.symm.trans hrun
  · cases hend.symm.trans hrun
    obtain ⟨_, _, hinode, hblock⟩ := hsafe.resolve_left hfree
    obtain ⟨k, hk, hk8, _⟩ := h.firstByte_inode.mp hinode
    obtain ⟨m, hm, hm8, _⟩ := h.firstByte_block.mp hblock
    rw [if_pos (hi.mpr (hk.room.mp hk8)), if_pos (hb.mpr (hm.room.mp hm8))] at htally
    refine loses_of_tally h.of hof ?_ ?_
    · rw [htally, Layout.tally_freeInodes]
      simp only [Call.lostInodes, uint32]
      omega
    · rw [htally, Layout.tally_freeBlocks]
      simp only [Call.lostBlocks, uint32]
      omega

theorem create_loses (hc : (Call.create t mode stale).Allowed img)
    (hsafe : (Call.create t mode stale).Safe img)
    (hrun : (Call.create t mode stale).run img = .ok (r, img')) :
    Loses img img' ((Call.create t mode stale).lostInodes r) ((Call.create t mode stale).lostBlocks img r) := by
  have hfinds : (Call.create t mode stale).FindsParent img :=
    or_assoc.mp (hsafe.imp_right fun hroom => hroom.2.1)
  rcases h.wellFormed.create_ends hc hfinds with ⟨_, hend⟩ |
    ⟨hfree, ⟨_, hend⟩ | ⟨_, i, img₁, hend, hof, hi, htally⟩⟩
  · -- The counter was decremented before the check.
    cases hend.symm.trans hrun
    refine loses_of_tally h.of h.of.setFreeInodesCount ?_ ?_
    · rw [Layout.tally_setFreeInodesCount, Layout.tally_freeInodes]
      simp only [Call.lostInodes, enomem, uint32]
      omega
    · rw [Layout.tally_setFreeInodesCount]
      simp only [Call.lostBlocks, add_zero]
  · cases hend.symm.trans hrun
  · cases hend.symm.trans hrun
    obtain ⟨_, _, hinode⟩ := hsafe.resolve_left hfree
    obtain ⟨k, hk, hk8, _⟩ := h.firstByte_inode.mp hinode
    rw [if_pos (hi.mpr (hk.room.mp hk8))] at htally
    refine loses_of_tally h.of hof ?_ ?_
    · rw [htally, Layout.tally_freeInodes]
      simp only [Call.lostInodes, uint32, if_true]
      omega
    · rw [htally]
      simp only [Call.lostBlocks, add_zero]

/-- The one block of a directory. -/
theorem length_blocks_directory (hnd : nodes i = some nd) (hdir : sIsDir nd.mode) :
    nd.blocks.length = 1 := by
  obtain ⟨b, hext, _, _⟩ := h.tree.exists_block hnd hdir
  rw [(h.tree.small i nd hnd).blocks_eq, hext]
  rfl

theorem rmdir_loses (hc : (Call.rmdir t stale).Allowed img)
    (hsafe : (Call.rmdir t stale).Safe img)
    (hrun : (Call.rmdir t stale).run img = .ok (r, img')) :
    Loses img img' ((Call.rmdir t stale).lostInodes r) ((Call.rmdir t stale).lostBlocks img r) := by
  obtain ⟨i, nd, hi, hnd, hdir⟩ := IsDirectory.node h.hold h.tree.closed t.component t.length_lt hc
  obtain ⟨p, pn, hp, hpn, _, _⟩ := h.wellFormed.parent_of_resolve hi
  have hlt := (h.tree.small i nd hnd).inode_lt
  by_cases hlinks : nd.links = 2
  · have hroom := hsafe.resolve_left fun hleads => by
      rw [leads_iff (h.wellFormed.pathInode_target hi), h.of.inodeAddr hlt.le,
        (h.hold.nodeAt i nd hnd).links] at hleads
      exact hleads hlinks
    have hreads : RemovalReads img (L.recordAt p) (L.extentAt p) t.name := by
      by_contra hnot
      obtain ⟨f, hf⟩ :=
        h.wellFormed.rmdir_fault hi hnd hroom.1 hroom.2 hp hpn hlinks hnot
      cases hf.symm.trans hrun
    obtain ⟨img₁, hend, hof, hfreeBlocks, husedBlocks, hfreeInodes, husedInodes⟩ :=
      h.wellFormed.rmdir_tally hi hnd hroom.1 hroom.2 hp hpn hlinks hreads
    cases hend.symm.trans hrun
    rw [h.length_blocks_directory hnd hdir] at husedBlocks
    refine loses_of_tally h.of hof ?_ ?_
    · rw [hfreeInodes, Layout.tally_freeInodes]
      simp only [Call.lostInodes, uint32]
      omega
    · rw [hfreeBlocks, Layout.tally_freeBlocks]
      simp only [Call.lostBlocks, if_true]
      omega
  · cases (h.wellFormed.rmdir_refused hi hnd hlinks).symm.trans hrun
    exact .refl img

theorem unlink_loses (hc : (Call.unlink t stale).Allowed img)
    (hsafe : (Call.unlink t stale).Safe img)
    (hrun : (Call.unlink t stale).run img = .ok (r, img')) :
    Loses img img' ((Call.unlink t stale).lostInodes r) ((Call.unlink t stale).lostBlocks img r) := by
  obtain ⟨i, nd, hi, hnd, _⟩ := IsFile.node h.hold h.tree.closed t.component t.length_lt hc
  obtain ⟨hlen, hdirs⟩ := hsafe
  obtain ⟨pn, hpn, _⟩ := h.tree.root
  have hp : nodes.resolve t.dirs = ((0 : Nat) : Int) := by
    rw [hdirs]
    rfl
  have hbuf : t.dirs ≠ [] → BufferReads stale t.dirs := fun hne => absurd hdirs hne
  -- The stray record of the root is its own record.
  have hstray : L.strayAt 0 = L.recordAt 0 := by
    simp [Layout.strayAt, Layout.recordAt]
  have hcount : extentCount img (L.strayAt 0) ≤ pn.extents.length := by
    rw [hstray, (h.hold.nodeAt 0 pn hpn).count]
  have hreads : RemovalReads img (L.strayAt 0) (L.extentAt 0) t.name := by
    by_contra hnot
    obtain ⟨f, hf⟩ := h.wellFormed.unlink_fault hi hnd hlen hbuf hp hpn hcount hnot
    cases hf.symm.trans hrun
  obtain ⟨img₁, hend, hof, hfreeBlocks, husedBlocks, hfreeInodes, husedInodes⟩ :=
    h.wellFormed.unlink_tally hi hnd hlen hbuf hp hpn hcount hreads
  cases hend.symm.trans hrun
  refine loses_of_tally h.of hof ?_ ?_
  · rw [hfreeInodes, Layout.tally_freeInodes]
    simp only [Call.lostInodes, uint32]
    omega
  · rw [hfreeBlocks, Layout.tally_freeBlocks]
    simp only [Call.lostBlocks, uint32]
    omega

theorem write_loses (hc : (Call.write t buf offset).Allowed img)
    (hsafe : (Call.write t buf offset).Safe img)
    (hrun : (Call.write t buf offset).run img = .ok (r, img')) :
    Loses img img' ((Call.write t buf offset).lostInodes r) ((Call.write t buf offset).lostBlocks img r) := by
  obtain ⟨i, hpath, hlt, hends⟩ := h.wellFormed.write_ends hc
  rcases hends with ⟨_, _, hend⟩ | ⟨_, _, f, hend⟩ | ⟨_, img₁, hend, hof, hcases⟩
  · cases hend.symm.trans hrun
    exact .refl img
  · cases hend.symm.trans hrun
  · obtain ⟨_, rfl⟩ := Prod.mk.inj (Except.ok.inj (hend.symm.trans hrun))
    rcases hcases with ⟨_, htally⟩ | ⟨hzero, k, hleast, htally⟩
    · refine loses_of_tally h.of hof ?_ ?_
      · rw [htally]
        simp only [Call.lostInodes, add_zero]
      · rw [htally]
        simp only [Call.lostBlocks, add_zero]
    · rw [Call.Safe, leads_iff hpath, h.of.inodeAddr hlt.le, if_pos hzero] at hsafe
      obtain ⟨m, hm, hm8, _⟩ := h.firstByte_block.mp hsafe.2
      rw [if_pos (hleast.room.mpr (hm.room.mp hm8))] at htally
      refine loses_of_tally h.of hof ?_ ?_
      · rw [htally]
        simp only [Call.lostInodes, add_zero]
      · rw [htally, Layout.tally_freeBlocks]
        simp only [Call.lostBlocks, uint32]
        omega

/-- Nodes of the same inodes and blocks are marked by the same bits. -/
theorem tally_used (h' : Consistent L img' nodes') (hlive : ∀ j, (nodes' j).isSome = (nodes j).isSome)
    (hext : ∀ e, (∃ j nd, nodes' j = some nd ∧ e ∈ nd.extents) ↔
      ∃ j nd, nodes j = some nd ∧ e ∈ nd.extents) :
    (L.tally img').usedInodes = (L.tally img).usedInodes ∧
      (L.tally img').usedBlocks = (L.tally img).usedBlocks := by
  simp only [Layout.tally_usedInodes, Layout.tally_usedBlocks]
  constructor
  · refine setBits_congr fun k hk => ?_
    rw [h.inodeBits k hk, h'.inodeBits k hk, hlive]
  · refine setBits_congr fun b hb => ?_
    rw [Bool.eq_iff_iff, h.dataBits b hb, h'.dataBits b hb, hext]

theorem truncate_loses (hc : (Call.truncate t size).Allowed img)
    (hsafe : (Call.truncate t size).Safe img)
    (hrun : (Call.truncate t size).run img = .ok (r, img')) :
    Loses img img' ((Call.truncate t size).lostInodes r) ((Call.truncate t size).lostBlocks img r) := by
  obtain ⟨i, nd, b, img₁, hi, hnd, hfile, hext, hend, hcases⟩ := h.truncate_safe hc hsafe
  cases hend.symm.trans hrun
  have hlt := (h.tree.small i nd hnd).inode_lt
  have hpath : pathInode img t.path = .ok (i : Int) := h.wellFormed.pathInode_target hi
  have hlost : (Call.truncate t size).lostBlocks img 0 =
      (int32 (size - (nd.size % 4096 : Nat))).tdiv 4096 + 1 := by
    simp only [Call.lostBlocks, hpath]
    rw [h.of.inodeAddr hlt.le, (h.hold.nodeAt i nd hnd).size]
  obtain ⟨new, hnewExt, h'⟩ : ∃ new : Node, new.extents = nd.extents ∧
      Consistent L img' (nodes.updated i new) := by
    rcases hcases with ⟨_, _, _, _, _, h'⟩ | ⟨_, _, h', _⟩
    · exact ⟨{ nd with size := size }, rfl, h'⟩
    · exact ⟨nd, rfl, h'⟩
  obtain ⟨husedInodes, husedBlocks⟩ := h.tally_used h' (fun j => by
    by_cases hj : j = i
    · subst hj
      rw [Nodes.updated_self, hnd]
      rfl
    · rw [Nodes.updated_other hj]) fun e => exists_congr fun j => by
    by_cases hj : j = i
    · subst hj
      simp [Nodes.updated_self, hnd, hnewExt]
    · rw [Nodes.updated_other hj]
  have hfree : (L.tally img').freeBlocks = uint32 (freeBlocksCount img -
      ((int32 (size - (nd.size % 4096 : Nat))).tdiv 4096 + 1)) ∧
        (L.tally img').freeInodes = freeInodesCount img := by
    by_cases hsize : size = nd.size
    · obtain ⟨_, hend', _, hfree, _, hinodes, _⟩ := h.wellFormed.truncate_same_tally hi hnd hsize
      cases hend'.symm.trans hend
      exact ⟨hfree, hinodes⟩
    · obtain ⟨_, hend', _, hfree, _, hinodes, _⟩ := h.wellFormed.truncate_other_tally hi hnd hsize
      cases hend'.symm.trans hend
      exact ⟨hfree, hinodes⟩
  refine loses_of_tally h.of h'.of ?_ ?_
  · rw [husedInodes, hfree.2, Layout.tally_freeInodes]
    simp only [Call.lostInodes, add_zero]
  · rw [husedBlocks, hfree.1, hlost, Layout.tally_freeBlocks, uint32]
    omega

/-- What a safe call loses. -/
theorem loses (hc : c.Allowed img) (hsafe : c.Safe img) (hrun : c.run img = .ok (r, img')) :
    Loses img img' (c.lostInodes r) (c.lostBlocks img r) := by
  cases c with
  | mkdir t mode stale => exact h.mkdir_loses hc hsafe hrun
  | create t mode stale => exact h.create_loses hc hsafe hrun
  | rmdir t stale => exact h.rmdir_loses hc hsafe hrun
  | unlink t stale => exact h.unlink_loses hc hsafe hrun
  | write t buf offset => exact h.write_loses hc hsafe hrun
  | truncate t size => exact h.truncate_loses hc hsafe hrun

end Consistent

/-! ## Runs -/

/-- A counter by what it adds up to. -/
theorem uint32_of_sum {free used : Nat} {lost total : Int} (hlt : free < 4294967296)
    (h : (free + used + lost) % 4294967296 = total % 4294967296) :
    free = uint32 (total - used - lost) := by
  unfold uint32
  omega

/-- A fresh image has an inode and a block marked that its counters do not know of. -/
theorem FreshImage.used (hfresh : FreshImage img size n) :
    freeInodesCount img + usedInodes img = n + 1 ∧
      freeBlocksCount img + usedBlocks img = formatBlocks size n + 1 := by
  have h := hfresh.consistent
  obtain ⟨raw, _, rfl⟩ := hfresh.formatted
  obtain ⟨_, hblocks, hinodes⟩ : (formatLayout size n _ _).Of (mkfs raw size n).2 ∧
      freeBlocksCount (mkfs raw size n).2 = formatBlocks size n ∧
        freeInodesCount (mkfs raw size n).2 = n := mkfs_superblock hfresh.inodes_pos hfresh.fits.1
  have hzero : ∀ k, (freshNodes k).isSome = decide (k = 0) := by
    intro k
    unfold freshNodes
    split <;> simp_all
  rw [h.of.usedInodes, Layout.tally_usedInodes, h.of.usedBlocks, Layout.tally_usedBlocks, hinodes,
    hblocks]
  constructor
  · rw [setBits_start]
    · exact lt_of_lt_of_le (by omega) (Layout.bits_ge _)
    · intro k hk
      rw [h.inodeBits k hk, hzero]
  · rw [setBits_start (by decide)]
    intro b hb
    rw [Bool.eq_iff_iff, h.dataBits b hb, decide_eq_true_iff]
    constructor
    · rintro ⟨i, nd, hnd, he⟩
      obtain ⟨_, rfl⟩ := freshNodes_eq hnd
      simpa [rootNode] using he
    · rintro rfl
      exact ⟨0, rootNode, rfl, by decide⟩

/-- What a run of safe calls loses. -/
theorem ChargedRun.loses (h : Consistent L img nodes) (run : ChargedRun img log img') :
    (∃ nodes', Consistent L img' nodes') ∧ Loses img img' (lostInodes log) (lostBlocks log) := by
  refine Run.invariant (I := fun log img' => (∃ nodes', Consistent L img' nodes') ∧
    Loses img img' (lostInodes log) (lostBlocks log)) ⟨⟨nodes, h⟩, .refl img⟩ ?_ run
  rintro log img₁ a img₂ ⟨⟨nodes', h'⟩, hlost⟩ ⟨⟨hallowed, hrun, hblocks⟩, hsafe⟩
  obtain ⟨nodes'', h'', _⟩ := h'.nodeStep hallowed hsafe hrun
  refine ⟨⟨nodes'', h''⟩, ?_⟩
  have hsum := hlost.trans (h'.loses hallowed hsafe hrun)
  rw [hblocks] at hsum
  simpa [lostInodes, lostBlocks] using hsum

/-- After every run of safe calls `a1fs_statfs` reports the counters of `mkfs` without the
inodes and blocks that are marked or lost. -/
theorem statfs_accounts (hfresh : FreshImage img size n) (run : ChargedRun img log img') :
    a1fsStatfs img' size = (0,
      { bsize := 4096
        frsize := 4096
        blocks := size / 4096
        bfree := uint32 ((formatBlocks size n + 1 : Nat) - usedBlocks img' - lostBlocks log)
        bavail := uint32 ((formatBlocks size n + 1 : Nat) - usedBlocks img' - lostBlocks log)
        files := n
        ffree := uint32 ((n + 1 : Nat) - usedInodes img' - lostInodes log)
        favail := uint32 ((n + 1 : Nat) - usedInodes img' - lostInodes log)
        namemax := 252 }) := by
  obtain ⟨⟨nodes, h⟩, hlost⟩ := run.loses hfresh.consistent
  obtain ⟨hinodes, hblocks⟩ := hfresh.used
  have hffree : freeInodesCount img' =
      uint32 ((n + 1 : Nat) - usedInodes img' - lostInodes log) := by
    refine uint32_of_sum load_lt (hlost.inodes.trans ?_)
    rw [← hinodes, Int.natCast_add]
  have hbfree : freeBlocksCount img' =
      uint32 ((formatBlocks size n + 1 : Nat) - usedBlocks img' - lostBlocks log) := by
    refine uint32_of_sum load_lt (hlost.blocks.trans ?_)
    rw [← hblocks, Int.natCast_add]
  have hfiles : inodesCount img' = n := h.of.inodesCount
  rw [a1fsStatfs, hffree, hbfree, hfiles]

theorem statfs_accounts_file : ∃ img', ChargedRun smallImage [⟨createFile, 0, 0⟩] img' ∧
    a1fsStatfs img' 1048576 = (0,
      { bsize := 4096
        frsize := 4096
        blocks := 1048576 / 4096
        bfree := uint32 ((formatBlocks 1048576 32 + 1 : Nat) - usedBlocks img' -
          lostBlocks [⟨createFile, 0, 0⟩])
        bavail := uint32 ((formatBlocks 1048576 32 + 1 : Nat) - usedBlocks img' -
          lostBlocks [⟨createFile, 0, 0⟩])
        files := 32
        ffree := uint32 ((32 + 1 : Nat) - usedInodes img' - lostInodes [⟨createFile, 0, 0⟩])
        favail := uint32 ((32 + 1 : Nat) - usedInodes img' - lostInodes [⟨createFile, 0, 0⟩])
        namemax := 252 }) := by
  obtain ⟨img', hrun, run, _⟩ := createFile_run
  obtain ⟨⟨hallowed, _⟩, hsafe⟩ := run.single_inv
  have hcharged : ChargedRun smallImage [⟨createFile, 0, 0⟩] img' :=
    Run.nil.snoc ⟨⟨hallowed, hrun, rfl⟩, hsafe⟩
  exact ⟨img', hcharged, statfs_accounts smallImage_fresh hcharged⟩

end UoftOs.FileSystem
