import UoftOs.FileSystem.Format
import UoftOs.FileSystem.WellFormed

/-!
# The fresh file system

`mkfs` leaves a well-formed image with an empty root directory when the bytes of
the inode bitmap were zero before. Its data blocks are balanced, its inodes are not.
-/

namespace UoftOs.FileSystem

open Lib.ByteMemory Lib.Frames

/-- The root directory that `mkfs` stores. -/
def rootNode : Node where
  mode := sIfDir ||| 0o777
  links := 2
  size := 512
  extents := [(0, 1)]
  entries := [(dot, 0), (dotDot, 0)]

/-- The root and nothing else. -/
def freshNodes : Nodes := fun i => if i = 0 then some rootNode else none

variable {img : Image} {size n i : Nat} {nd : Node}

theorem freshNodes_eq (h : freshNodes i = some nd) : i = 0 ∧ nd = rootNode := by
  unfold freshNodes at h
  split at h
  · rename_i hi
    exact ⟨hi, (Option.some.inj h).symm⟩
  · cases h

theorem rootNode_blocks : rootNode.blocks = [0] := rfl

theorem rootNode_ok {L : Layout} : rootNode.Ok L := by
  have hdata := L.data_lt
  constructor
  case blocks_lt =>
      intro b hb
      rw [rootNode_blocks, List.mem_singleton] at hb
      omega
  all_goals decide

/-- A 32-bit field of a zeroed range. -/
theorem u32_fill_zero {a b : Int} {k : Nat} (hlo : a ≤ b) (hhi : b + 4 ≤ a + k) :
    u32 (fill img a 0 k) b = 0 := by
  have hbytes : bytesAt (fill img a 0 k) b 4 = bytesAt (fun _ => 0) b 4 :=
    bytesAt_congr fun x hx hx' => fill_apply (by omega) (by omega)
  rw [u32, load, hbytes]
  rfl

theorem stringAt_storeRootEntry {d : Int} {name : Name} :
    StringAt (storeRootEntry img d name) (d + 4) name :=
  stringAt_store_self

theorem dentryIno_storeRootEntry {d : Int} {name : Name} :
    dentryIno (storeRootEntry img d name) d = 0 := by
  rw [dentryIno, storeRootEntry, setDentryName, u32_store_of_disjoint (.inl (le_refl _)),
    u32_fill_zero (le_refl _) (by omega)]

/-- The root stands where `mkfs` stores it. -/
theorem rootNode_at (hn : 0 < n) (h : dataStart n < 524288) :
    rootNode.At (formatLayout size n hn h) (mkfs img size n).2 0 := by
  obtain ⟨L, hL⟩ : ∃ L, formatLayout size n hn h = L := ⟨_, rfl⟩
  obtain ⟨sb, hsb⟩ : ∃ sb, formatSuperblock size n = sb := ⟨_, rfl⟩
  rw [mkfs_eq_formatImage hn h, hL, hsb]
  have hrecord : AgreeOn (formatImage L sb img) _ _ _ := formatImage_record
  obtain ⟨m, hblock⟩ : ∃ m, AgreeOn (formatImage L sb img) _ _ _ := formatImage_block
  have hslot0 : rootNode.slotAt L 0 = L.blockAt 0 := Int.add_zero _
  have hslot1 : rootNode.slotAt L 1 = L.blockAt 0 + 256 := rfl
  constructor
  · rw [inodeMode, u32_congr (hrecord.mono (by omega) (by omega))]
    simp (disch := omega) only [storeRootInode, setMode, setLinks, setSize, setExtentCount,
      u32_set32_of_disjoint, u32_set64_of_disjoint, u32_set32_self]
    rfl
  · rw [inodeLinks, u32_congr (hrecord.mono (by omega) (by omega))]
    simp (disch := omega) only [storeRootInode, setMode, setLinks, setSize, setExtentCount,
      u32_set32_of_disjoint, u32_set64_of_disjoint, u32_set32_self]
    rfl
  · rw [inodeSize, u64_congr (hrecord.mono (by omega) (by omega))]
    simp (disch := omega) only [storeRootInode, setMode, setLinks, setSize, setExtentCount,
      u64_set32_of_disjoint, u64_set64_self]
    rfl
  · rw [inoNumber, i32_congr (hrecord.mono (by omega) (by omega)), i32]
    simp (disch := omega) only [storeRootInode, setMode, setLinks, setSize, setExtentCount,
      u32_set32_of_disjoint, u32_set64_of_disjoint, u32_fill_zero]
    rfl
  · rw [extentCount, i32_congr (hrecord.mono (by omega) (by omega)), i32]
    simp only [storeRootInode, setExtentCount, u32_set32_self]
    rfl
  · intro k hk
    obtain rfl : k = 0 := by
      simp only [rootNode, List.length_singleton] at hk
      omega
    have hzero : L.extentAt 0 + 8 * ((0 : Nat) : Int) = L.extentAt 0 + 8 * 0 := rfl
    rw [extentStart, extentLength, hzero]
    simp (disch := omega) only [formatImage, setExtentStart, setExtentLength, u32_set32_self,
      u32_set32_of_disjoint]
    exact ⟨rfl, rfl⟩
  · intro k hk
    have htwo : k < 2 := hk
    obtain rfl | rfl : k = 0 ∨ k = 1 := by omega
    · rw [hslot0]
      have hfirst : AgreeOn (formatImage L sb img) (storeRootEntry m (L.blockAt 0) dot)
          (L.blockAt 0) (L.blockAt 0 + 256) :=
        (hblock.mono (le_refl _) (by omega)).trans fun x hlo hhi =>
          storeRootEntry_apply (by decide) (by omega)
      refine ⟨stringAt_storeRootEntry.congr (hfirst.mono (by omega) ?_), ?_⟩
      · have hlen : rootNode.entries[0].1.length = 1 := rfl
        omega
      · rw [dentryIno, u32_congr (hfirst.mono (by omega) (by omega))]
        exact dentryIno_storeRootEntry
    · rw [hslot1]
      refine ⟨stringAt_storeRootEntry.congr (hblock.mono (by omega) ?_), ?_⟩
      · have hlen : rootNode.entries[1].1.length = 2 := rfl
        omega
      · rw [dentryIno, u32_congr (hblock.mono (by omega) (by omega))]
        exact dentryIno_storeRootEntry

/-- A fresh image is well formed when its inode bitmap was zero before and every block
has an address. -/
theorem mkfs_wellFormed (hn : 0 < n) (h : LayoutFits size n) (hsize : size / 4096 < 524291)
    (hzero : ∀ x : Int, 4096 ≤ x → x < 4096 * (n / 32768 + 2 : Nat) → img x = 0) :
    WellFormed (formatLayout size n hn h.1) (mkfs img size n).2 freshNodes := by
  have hcount := formatBlocks_of_exact (exact_of_layoutFits hn h)
  have hblocks : (formatLayout size n hn h.1).blocks = formatBlocks size n := rfl
  have hroot : freshNodes 0 = some rootNode := rfl
  obtain ⟨hlt, hlo, hhi⟩ := h
  constructor
  case hold =>
      refine ⟨mkfs_of hn hlt, fun i nd hnd => ?_⟩
      obtain ⟨rfl, rfl⟩ := freshNodes_eq hnd
      exact rootNode_at hn hlt
  case closed =>
      constructor
      case inode_lt =>
          intro i nd hnd
          obtain ⟨rfl, rfl⟩ := freshNodes_eq hnd
          exact hn
      case ok =>
          intro i nd hnd
          obtain ⟨rfl, rfl⟩ := freshNodes_eq hnd
          exact rootNode_ok
      case entries =>
          intro i nd hnd e he
          obtain ⟨rfl, rfl⟩ := freshNodes_eq hnd
          simp only [rootNode, List.mem_cons, List.not_mem_nil, or_false] at he
          obtain rfl | rfl := he
          · rfl
          · rfl
      case root => exact ⟨rootNode, rfl, by decide⟩
  case blocks_le => omega
  case last_lt =>
      have hdata : (formatLayout size n hn hlt).data = dataStart n := rfl
      omega
  case inodeBits =>
      intro i hi
      rw [mkfs_inodeBit hn hlt hzero hi, freshNodes]
      by_cases hzero : i = 0
      · simp [hzero]
      · simp [hzero]
  case dataBits =>
      intro b hb
      rw [mkfs_dataBit hn hlt hb, decide_eq_true_eq]
      constructor
      · rintro rfl
        exact ⟨0, rootNode, rfl, by decide⟩
      · rintro ⟨i, nd, hnd, hmem⟩
        obtain ⟨_, rfl⟩ := freshNodes_eq hnd
        simpa [rootNode_blocks] using hmem
  case block_lt =>
      intro i nd hnd b hb
      obtain ⟨rfl, rfl⟩ := freshNodes_eq hnd
      rw [rootNode_blocks, List.mem_singleton] at hb
      omega
  case nodup =>
      intro i nd hnd
      obtain ⟨rfl, rfl⟩ := freshNodes_eq hnd
      decide
  case disjoint =>
      intro i j nd nd' hnd hnd' hne
      obtain ⟨rfl, _⟩ := freshNodes_eq hnd
      obtain ⟨rfl, _⟩ := freshNodes_eq hnd'
      exact absurd rfl hne
  case directory =>
      intro i nd hnd _
      obtain ⟨rfl, rfl⟩ := freshNodes_eq hnd
      decide
  case size_le =>
      intro i nd hnd
      obtain ⟨rfl, rfl⟩ := freshNodes_eq hnd
      decide

/-- `a1fs_create` of `"/f"` is allowed in an empty root directory. -/
theorem fresh_allows_create {L : Layout} {mode : Nat} {stale : Nat → UInt8}
    (wf : WellFormed L img freshNodes) (hreg : sIsReg mode) (hmode : mode < 4294967296) :
    (Call.create fileTarget mode stale).Allowed img :=
  ⟨absent_of_resolve wf.hold wf.closed fileTarget.component fileTarget.length_lt (by decide),
    wf.root_isDirectory, hreg, hmode⟩

/-! ## Counters that add up -/

theorem setBits_start {a : Int} {k : Nat} (hk : 0 < k)
    (h : ∀ i < k, bitSet img a i = decide (i = 0)) : setBits img a k = 1 := by
  have hone : (Finset.range k).filter (fun i => bitSet img a i) = {0} := by
    ext i
    rw [Finset.mem_filter, Finset.mem_range, Finset.mem_singleton]
    constructor
    · rintro ⟨hi, hset⟩
      simpa [h i hi] using hset
    · rintro rfl
      exact ⟨hk, by simp [h 0 hk]⟩
  rw [setBits, hone, Finset.card_singleton]

/-- The fresh image of 1 MiB with the counters that its bitmaps call for. -/
def balancedImage (n : Nat) : Image :=
  setFreeInodesCount (setFreeBlocksCount (mkfs (fun _ => 0) 1048576 n).2
    (formatBlocks 1048576 n - 1 : Nat)) (n - 1 : Nat)

theorem balancedImage_wellFormed (hn : 0 < n) (h : LayoutFits 1048576 n) :
    WellFormed (formatLayout 1048576 n hn h.1) (balancedImage n) freshNodes :=
  (mkfs_wellFormed hn h (by decide) fun _ _ _ => rfl).of_setFreeBlocksCount.of_setFreeInodesCount

theorem balancedImage_inodes (hn : 0 < n) (h : LayoutFits 1048576 n) :
    InodesBalanced (balancedImage n) ∧ freeInodesCount (balancedImage n) = n - 1 := by
  have hwf := balancedImage_wellFormed hn h
  have hfree : freeInodesCount (balancedImage n) = n - 1 := by
    have hlt := h.1
    unfold dataStart at hlt
    rw [balancedImage, freeInodesCount_setFreeInodesCount]
    unfold uint32
    omega
  refine ⟨?_, hfree⟩
  have hused : setBits (balancedImage n) (formatLayout 1048576 n hn h.1).inodeMapAt
      (formatLayout 1048576 n hn h.1).inodeBitCount = 1 := by
    refine setBits_start (lt_of_lt_of_le (by omega) (formatLayout 1048576 n hn h.1).bits_ge) ?_
    intro i hi
    rw [hwf.inodeBits i hi, freshNodes]
    by_cases hzero : i = 0
    · simp [hzero]
    · simp [hzero]
  have hinodes : (formatLayout 1048576 n hn h.1).inodes = n := rfl
  rw [hwf.of.inodesBalanced_iff, Layout.tally_freeInodes, Layout.tally_usedInodes, hused, hfree,
    hinodes]
  omega

theorem balancedImage_blocks (hn : 0 < n) (h : LayoutFits 1048576 n) :
    BlocksBalanced (balancedImage n) ∧
      freeBlocksCount (balancedImage n) = formatBlocks 1048576 n - 1 := by
  have hwf := balancedImage_wellFormed hn h
  have hlt : formatBlocks 1048576 n < 4294967296 := uint32_lt
  have hcount := formatBlocks_of_exact (exact_of_layoutFits hn h)
  have hlo := h.2.1
  have hfree : freeBlocksCount (balancedImage n) = formatBlocks 1048576 n - 1 := by
    rw [balancedImage, freeBlocksCount_setFreeInodesCount, freeBlocksCount_setFreeBlocksCount]
    unfold uint32
    omega
  refine ⟨?_, hfree⟩
  have hused : setBits (balancedImage n) (formatLayout 1048576 n hn h.1).dataMapAt 65536 = 1 := by
    have hge := (formatLayout 1048576 n hn h.1).dataMapAt_ge
    refine setBits_start (by decide) fun b hb => ?_
    rw [balancedImage, bitSet_setFreeInodesCount hge, bitSet_setFreeBlocksCount hge,
      mkfs_dataBit hn h.1 hb]
  have hblocks : (formatLayout 1048576 n hn h.1).blocks = formatBlocks 1048576 n := rfl
  rw [hwf.of.blocksBalanced_iff, Layout.tally_freeBlocks, Layout.tally_usedBlocks, hused, hfree,
    hblocks]
  omega

end UoftOs.FileSystem
