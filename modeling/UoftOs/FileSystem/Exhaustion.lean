import UoftOs.FileSystem.Failures
import UoftOs.FileSystem.Splitting

/-!
# Full file systems

When the counters are exact, `a1fs_mkdir` finds out whether an inode and a data
block are free. `a1fs_create` decrements the counter of inodes before its test, so
it refuses the last free inode and takes one where none is free.
-/

namespace UoftOs.FileSystem

open Lib.ByteMemory

variable {L : Layout} {img img' : Image} {nodes : Nodes} {t : Target} {mode : Nat}
  {stale : Nat → UInt8} {a : Int} {n : Nat} {s path : Path}

/-! ## Exact counters -/

/-- The number of clear bits among the first `n`. -/
def clearBits (img : Image) (a : Int) (n : Nat) : Nat :=
  ((Finset.range n).filter fun i => ¬ bitSet img a i).card

theorem setBits_add_clearBits (img : Image) (a : Int) (n : Nat) :
    setBits img a n + clearBits img a n = n := by
  have hsum := Finset.card_filter_add_card_filter_not (s := Finset.range n)
    fun i => bitSet img a i = true
  rwa [Finset.card_range] at hsum

/-- The free inodes by the bitmap. -/
def freeInodes (img : Image) : Nat := clearBits img (inodeMapAddr img) (inodesCount img)

/-- The free data blocks by the bitmap. -/
def freeBlocks (img : Image) : Nat := clearBits img (dataMapAddr img) (blocksCount img)

/-- The superblock counts the clear bits below the numbers of inodes and of blocks. -/
structure ExactCounters (img : Image) : Prop where
  inodes : freeInodesCount img = freeInodes img
  blocks : freeBlocksCount img = freeBlocks img

/-- The call returns 0 if there is enough for it, and a negative error if not. -/
def Call.Detects (img : Image) (c : Call) (enough : Prop) : Prop :=
  (enough → ∃ img', c.run img = .ok (0, img')) ∧
    (¬ enough → ∃ e img', e < 0 ∧ c.run img = .ok (e, img'))

/-! ## The parent of a new entry -/

/-- The string in `parent_path` ends in the buffer. -/
theorem parentPath_length {pre : Path} (hpre : pre.length < 100) (h : parentPath stale pre = some s) :
    s.length < 4096 := by
  obtain ⟨rest, hrest⟩ := eq_append_of_cstr h
  have hlen := congrArg List.length hrest
  rw [List.length_append, List.length_map, List.length_range, List.length_append,
    length_terminated] at hlen
  omega

section Resolved

variable (hold : Holds L img nodes) (hclosed : Closed nodes L)
include hold hclosed

/-- `path_inode` has an answer for every string that fits its buffer. -/
theorem Holds.pathInode_total (hlen : s.length < 4096) :
    ∃ r, FileSystem.pathInode img s = .ok r := by
  rw [FileSystem.pathInode]
  split
  · exact ⟨_, rfl⟩
  · split
    · exact ⟨_, rfl⟩
    · rw [if_neg (Nat.not_le.mpr hlen)]
      split
      · exact ⟨_, rfl⟩
      · obtain ⟨nd, hnd, hdir⟩ := hclosed.root
        rw [show inodeAddr img 0 = L.recordAt 0 from hold.of.inodeAddr (i := 0) (Nat.zero_le _)]
        exact ⟨_, hold.walk hclosed hnd hdir _ _⟩

/-- The split of the path in `a1fs_mkdir` and `a1fs_create` goes through exactly when its
string copies fit. -/
theorem newEntryParent_ok_iff (hslash : slash ∈ path) :
    (∃ r, newEntryParent img stale path = .ok r) ↔ CopiesFit stale path := by
  obtain ⟨⟨pre, base⟩, hlast⟩ := exists_lastSlash hslash
  constructor
  · rintro ⟨r, hr⟩
    rw [newEntryParent] at hr
    obtain ⟨⟨pre', base'⟩, hsplit, hr⟩ := bind_eq_ok.mp hr
    rw [splitPath] at hsplit
    split at hsplit
    · cases hsplit
    · rename_i hshort
      rw [hlast] at hsplit
      cases hsplit
      refine ⟨Nat.lt_of_not_le hshort, fun pre' base' hlast' => ?_, fun pre' base' hlast' => ?_⟩
      · have hlt := lastSlash_length hlast'
        omega
      · rw [hlast] at hlast'
        cases hlast'
        dsimp only at hr
        cases hread : parentPath stale pre with
        | none =>
            rw [hread] at hr
            cases hr
        | some s =>
            refine ⟨s, rfl, fun front parentNa hfront => ?_⟩
            rw [hread] at hr
            dsimp only at hr
            rw [hfront] at hr
            dsimp only at hr
            split at hr
            · cases hr
            · exact Nat.lt_of_not_le ‹_›
  · intro hfit
    obtain ⟨s, hread, hname⟩ := hfit.parent pre base hlast
    have hshort := hfit.path_cp
    have hsplit : splitPath path = .ok (pre, base) := by
      rw [splitPath, if_neg (Nat.not_le.mpr hshort), hlast]
    have hpre : pre.length < 100 := by
      rw [lastSlash_eq_some hlast, List.length_append, List.length_cons] at hshort
      omega
    rw [newEntryParent_reads hsplit hread hname]
    split
    · obtain ⟨r, hr⟩ := hold.pathInode_total hclosed (parentPath_length hpre hread)
      rw [hr]
      exact ⟨_, rfl⟩
    · exact ⟨_, rfl⟩

end Resolved

theorem Target.slash_mem (t : Target) : slash ∈ t.path := by
  rw [path, render_concat]
  exact List.mem_append_right _ List.mem_cons_self

namespace WellFormed

variable (wf : WellFormed L img nodes)
include wf

/-! ## Which calls succeed -/

theorem mkdir_succeeds_iff (t : Target) (mode : Nat) (stale : Nat → UInt8)
    (hfree : ¬ (freeInodesCount img = 0 ∨ freeBlocksCount img = 0)) :
    (∃ img', (Call.mkdir t mode stale).run img = .ok (0, img')) ↔ CopiesFit stale t.path := by
  obtain ⟨⟨img₁, i⟩, htake₁⟩ : ∃ r, takeFreeBit img L.inodeMapAt = r := ⟨_, rfl⟩
  have hold₁ : Holds L img₁ nodes :=
    hold_of_bitmap wf.hold wf.closed fun x hx _ => takeFreeBit_apply htake₁ hx
  obtain ⟨⟨img₂, b⟩, htake₂⟩ : ∃ r, takeFreeBit img₁ L.dataMapAt = r := ⟨_, rfl⟩
  have hold₂ : Holds L img₂ nodes :=
    hold_of_bitmap hold₁ wf.closed fun x _ hx => takeFreeBit_apply htake₂ hx
  rw [← newEntryParent_ok_iff hold₂ wf.closed t.slash_mem, Call.run, a1fsMkdir, if_neg hfree,
    wf.of.inodeMapAddr, htake₁]
  simp only [hold₁.of.dataMapAddr, htake₂]
  constructor
  · rintro ⟨img', hrun⟩
    obtain ⟨r, hr, _⟩ := bind_eq_ok.mp hrun
    exact ⟨r, hr⟩
  · rintro ⟨r, hr⟩
    rw [hr]
    exact ⟨_, rfl⟩

theorem create_succeeds_iff (t : Target) (stale : Nat → UInt8) (hreg : sIsReg mode)
    (hfree : ¬ (uint32 (freeInodesCount img - 1) = 0 ∨ freeBlocksCount img = 0)) :
    (∃ img', (Call.create t mode stale).run img = .ok (0, img')) ↔ CopiesFit stale t.path := by
  have wf₀ := wf.of_setFreeInodesCount (v := freeInodesCount img - 1)
  have hfree₀ : ¬ (freeInodesCount (setFreeInodesCount img (freeInodesCount img - 1)) = 0 ∨
      freeBlocksCount (setFreeInodesCount img (freeInodesCount img - 1)) = 0) := by
    rwa [freeInodesCount_setFreeInodesCount, freeBlocksCount_setFreeInodesCount]
  obtain ⟨img₀, himg₀⟩ : ∃ r, setFreeInodesCount img (freeInodesCount img - 1) = r := ⟨_, rfl⟩
  rw [himg₀] at wf₀ hfree₀
  obtain ⟨⟨img₁, i⟩, htake⟩ : ∃ r, takeFreeBit img₀ L.inodeMapAt = r := ⟨_, rfl⟩
  have hold₁ : Holds L img₁ nodes :=
    hold_of_bitmap wf₀.hold wf.closed fun x hx _ => takeFreeBit_apply htake hx
  rw [← newEntryParent_ok_iff hold₁ wf.closed t.slash_mem, Call.run, a1fsCreate, if_pos hreg, himg₀]
  simp only [if_neg hfree₀, wf₀.of.inodeMapAddr, htake]
  constructor
  · rintro ⟨img', hrun⟩
    obtain ⟨r, hr, _⟩ := bind_eq_ok.mp hrun
    exact ⟨r, hr⟩
  · rintro ⟨r, hr⟩
    rw [hr]
    exact ⟨_, rfl⟩

/-! ## When exhaustion is detected -/

variable (hexact : ExactCounters img)
include hexact

/-- An inode and a data block. -/
theorem mkdir_detects_iff :
    (Call.mkdir t mode stale).Detects img (0 < freeInodes img ∧ 0 < freeBlocks img) ↔
      (0 < freeInodes img ∧ 0 < freeBlocks img → CopiesFit stale t.path) := by
  rw [← hexact.inodes, ← hexact.blocks]
  by_cases hfree : freeInodesCount img = 0 ∨ freeBlocksCount img = 0
  · have hnot : ¬ (0 < freeInodesCount img ∧ 0 < freeBlocksCount img) := by omega
    refine iff_of_true ⟨fun h => absurd h hnot, fun _ => ⟨-enomem, img, by decide, ?_⟩⟩
      fun h => absurd h hnot
    exact if_pos hfree
  · have henough : 0 < freeInodesCount img ∧ 0 < freeBlocksCount img := by omega
    have hiff := wf.mkdir_succeeds_iff t mode stale hfree
    exact ⟨fun h _ => hiff.mp (h.1 henough),
      fun h => ⟨fun _ => hiff.mpr (h henough), fun hno => absurd henough hno⟩⟩

/-- An inode. -/
theorem create_detects_iff (hreg : sIsReg mode) :
    (Call.create t mode stale).Detects img (0 < freeInodes img) ↔
      (2 ≤ freeInodes img ∧ 0 < freeBlocks img ∧ CopiesFit stale t.path) ∨
        (freeInodes img = 0 ∧ freeBlocks img = 0) := by
  rw [← hexact.inodes, ← hexact.blocks]
  have hlt : freeInodesCount img < 4294967296 := load_lt
  have hone : uint32 (freeInodesCount img - 1) = 0 ↔ freeInodesCount img = 1 := by
    unfold uint32
    omega
  by_cases hfree : uint32 (freeInodesCount img - 1) = 0 ∨ freeBlocksCount img = 0
  · have hrun : (Call.create t mode stale).run img =
        .ok (-enomem, setFreeInodesCount img (freeInodesCount img - 1)) := create_refused hreg hfree
    have hdetects : (Call.create t mode stale).Detects img (0 < freeInodesCount img) ↔
        freeInodesCount img = 0 := by
      constructor
      · intro h
        by_contra hne
        obtain ⟨img', hzero⟩ := h.1 (Nat.pos_of_ne_zero hne)
        rw [hrun] at hzero
        cases hzero
      · intro hzero
        exact ⟨fun h => absurd hzero h.ne', fun _ => ⟨_, _, by decide, hrun⟩⟩
    rw [hdetects]
    rw [hone] at hfree
    omega
  · have hiff := wf.create_succeeds_iff t stale hreg hfree
    have hfails (h : (Call.create t mode stale).Detects img (0 < freeInodesCount img)) :
        0 < freeInodesCount img := by
      by_contra hzero
      obtain ⟨e, img', hneg, hrun⟩ := h.2 hzero
      exact hfree (create_failsClean hrun hneg)
    rw [hone] at hfree
    constructor
    · intro h
      have hpos := hfails h
      exact .inl ⟨by omega, by omega, hiff.mp (h.1 hpos)⟩
    · rintro (⟨htwo, _, hfit⟩ | ⟨_, hnone⟩)
      · exact ⟨fun _ => hiff.mpr hfit, fun hno => absurd htwo (by omega)⟩
      · exact absurd (.inr hnone) hfree

/-- With exact counters `a1fs_mkdir` detects exhaustion whenever its string copies fit;
`a1fs_create` does when two inodes are free, a data block too, and its string copies fit, or
when nothing is free at all. -/
theorem exhaustion_iff :
    (∀ (t : Target) (mode : Nat) (stale : Nat → UInt8), (Call.mkdir t mode stale).Allowed img →
      ((Call.mkdir t mode stale).Detects img (0 < freeInodes img ∧ 0 < freeBlocks img) ↔
        (0 < freeInodes img ∧ 0 < freeBlocks img → CopiesFit stale t.path))) ∧
    ∀ (t : Target) (mode : Nat) (stale : Nat → UInt8), (Call.create t mode stale).Allowed img →
      ((Call.create t mode stale).Detects img (0 < freeInodes img) ↔
        (2 ≤ freeInodes img ∧ 0 < freeBlocks img ∧ CopiesFit stale t.path) ∨
          (freeInodes img = 0 ∧ freeBlocks img = 0)) :=
  ⟨fun _ _ _ _ => wf.mkdir_detects_iff hexact,
    fun _ _ _ hc => wf.create_detects_iff hexact hc.2.2.1⟩

end WellFormed

/-! ## One free inode -/

theorem balancedImage_exact (hn : 0 < n) (h : LayoutFits 1048576 n) :
    ExactCounters (balancedImage n) ∧ freeInodes (balancedImage n) = n - 1 ∧
      freeBlocks (balancedImage n) = formatBlocks 1048576 n - 1 := by
  have hwf := balancedImage_wellFormed hn h
  have hof := hwf.of
  have hinodes : (formatLayout 1048576 n hn h.1).inodes = n := rfl
  have hblocks : (formatLayout 1048576 n hn h.1).blocks = formatBlocks 1048576 n := rfl
  have hbits := (formatLayout 1048576 n hn h.1).inodes_le_bits
  have hpos := hwf.block_lt 0 rootNode rfl 0 (by decide)
  have hle := hwf.blocks_le
  have hused : setBits (balancedImage n) (formatLayout 1048576 n hn h.1).inodeMapAt n = 1 := by
    refine setBits_start hn fun i hi => ?_
    rw [hwf.inodeBits i (by omega), freshNodes]
    by_cases hzero : i = 0
    · simp [hzero]
    · simp [hzero]
  have husedBlocks : setBits (balancedImage n) (formatLayout 1048576 n hn h.1).dataMapAt
      (formatBlocks 1048576 n) = 1 := by
    have hge := (formatLayout 1048576 n hn h.1).dataMapAt_ge
    refine setBits_start (by omega) fun b hb => ?_
    rw [balancedImage, bitSet_setFreeInodesCount hge, bitSet_setFreeBlocksCount hge,
      mkfs_dataBit hn h.1 (by omega)]
  have hfree : freeInodes (balancedImage n) = n - 1 := by
    have hsum := setBits_add_clearBits (balancedImage n)
      (formatLayout 1048576 n hn h.1).inodeMapAt n
    rw [freeInodes, hof.inodeMapAddr, hof.inodesCount, hinodes]
    omega
  have hfreeBlocks : freeBlocks (balancedImage n) = formatBlocks 1048576 n - 1 := by
    have hsum := setBits_add_clearBits (balancedImage n)
      (formatLayout 1048576 n hn h.1).dataMapAt (formatBlocks 1048576 n)
    rw [freeBlocks, hof.dataMapAddr, hof.blocksCount, hblocks]
    omega
  exact ⟨⟨(balancedImage_inodes hn h).2.trans hfree.symm,
    (balancedImage_blocks hn h).2.trans hfreeBlocks.symm⟩, hfree, hfreeBlocks⟩

/-- The split of `"/f"` fits when the buffer is zero. -/
theorem fileTarget_copiesFit : CopiesFit (fun _ => 0) fileTarget.path := by
  have hread : parentPath (fun _ => 0) [] = some [] :=
    parentPath_of_zero (by decide) (by decide) rfl
  have hlast : lastSlash fileTarget.path = some ([], [102]) := by decide
  refine ⟨by decide, fun pre base h => ?_, fun pre base h => ?_⟩
  · have hlt := lastSlash_length h
    have hpath : fileTarget.path.length = 2 := by decide
    omega
  · rw [hlast] at h
    cases h
    exact ⟨[], hread, fun front parentNa hfront => by cases hfront⟩

/-- With two free inodes `a1fs_create` of `"/f"` succeeds. -/
theorem exhaustion_iff_file :
    (Call.create fileTarget 0o100644 fun _ => 0).Detects (balancedImage 3)
      (0 < freeInodes (balancedImage 3)) := by
  have hwf := balancedImage_wellFormed (n := 3) (by decide) (by decide)
  obtain ⟨hexact, hinodes, hblocks⟩ := balancedImage_exact (n := 3) (by decide) (by decide)
  refine ((hwf.exhaustion_iff hexact).2 _ _ _ (fresh_allows_create hwf (by decide)
    (by decide))).mpr (.inl ⟨?_, ?_, fileTarget_copiesFit⟩)
  · rw [hinodes]
  · rw [hblocks]
    decide

/-- With one free inode `a1fs_create` of `"/f"` is refused. -/
theorem last_inode_refused :
    ¬ ∀ (L : Layout) (img : Image) (nodes : Nodes), WellFormed L img nodes → ExactCounters img →
      ∀ (t : Target) (mode : Nat) (stale : Nat → UInt8),
        ((Call.mkdir t mode stale).Allowed img →
          (Call.mkdir t mode stale).Detects img (0 < freeInodes img ∧ 0 < freeBlocks img)) ∧
        ((Call.create t mode stale).Allowed img →
          (Call.create t mode stale).Detects img (0 < freeInodes img)) := by
  intro hclaim
  have hwf := balancedImage_wellFormed (n := 2) (by decide) (by decide)
  obtain ⟨hexact, hinodes, _⟩ := balancedImage_exact (n := 2) (by decide) (by decide)
  have hcount : freeInodesCount (balancedImage 2) = 1 := hexact.inodes.trans hinodes
  have hallowed : (Call.create fileTarget 0o100644 fun _ => 0).Allowed (balancedImage 2) :=
    fresh_allows_create hwf (by decide) (by decide)
  have hdetects := (hclaim _ _ _ hwf hexact _ _ _).2 hallowed
  have hrefused : uint32 (freeInodesCount (balancedImage 2) - 1) = 0 := by
    rw [hcount]
    rfl
  obtain ⟨img', hrun⟩ := hdetects.1 (by rw [hinodes]; decide)
  rw [Call.run, create_refused (by decide) (.inl hrefused)] at hrun
  cases hrun

end UoftOs.FileSystem
