import UoftOs.FileSystem.WellFormed

/-!
# New entries, with their addresses resolved

`linkDirectory` and `linkFile` read addresses from the superblock at each step. In
an image with a layout they are a fixed sequence of stores: to the record of the
parent, the record and extents of the new inode, the new block and the slot behind
the parent's last entry.
-/

namespace UoftOs.FileSystem

open Lib.ByteMemory Lib.Frames

namespace Layout

/-- The record of a new inode. -/
def putRecord (L : Layout) (img : Image) (i mode links size extents : Nat) : Image :=
  let img := setMode img (L.recordAt i) mode
  let img := setLinks img (L.recordAt i) links
  let img := setSize img (L.recordAt i) size
  let img := setInoNumber img (L.recordAt i) i
  setExtentCount img (L.recordAt i) extents

/-- The slot behind the entries of a directory. -/
def newSlot (L : Layout) (img : Image) (p : Nat) : Int :=
  appendSlot img (L.extentAt p) (extentCount img (L.recordAt p))
    (inodeSize img (L.recordAt p) % 4096 : Nat)

/-- The parent with one more entry. -/
def growParent (L : Layout) (img : Image) (p : Nat) : Image :=
  setLinks (setSize img (L.recordAt p) (inodeSize img (L.recordAt p) + 256)) (L.recordAt p)
    (inodeLinks img (L.recordAt p) + 1)

/-- The extent of a new directory. -/
def putExtent (L : Layout) (img : Image) (i b : Nat) : Image :=
  setExtentLength (setExtentStart img (L.extentAt i) 0 b) (L.extentAt i) 0 1

/-- The entries `"."` and `".."` of a new directory. -/
def putDots (L : Layout) (img : Image) (i p b : Nat) : Image :=
  putDentry (putDentry img (L.blockAt b) i dot) (L.blockAt b + 256) p dotDot

/-- The stores of `linkDirectory` behind the bitmaps. -/
def linkedDirectory (L : Layout) (img : Image) (p : Nat) (name : Name) (mode i b : Nat) : Image :=
  let slot := L.newSlot img p
  let img := L.growParent img p
  let img := L.putExtent img i b
  let img := L.putRecord img i mode 2 512 1
  let img := L.putDots img i p b
  putDentry img slot i name

/-- The stores of `linkFile`. -/
def linkedFile (L : Layout) (img : Image) (p : Nat) (name : Name) (mode i : Nat) : Image :=
  let slot := L.newSlot img p
  let img := L.growParent img p
  let img := L.putRecord img i mode 1 0 0
  putDentry img slot i name

variable {L : Layout} {img img' : Image} {p i b mode links size extents : Nat} {name : Name}
  {x slot : Int}

/-! ## Where the stores go -/

theorem putRecord_apply (h : x < L.recordAt i ∨ L.recordAt i + 64 ≤ x) :
    L.putRecord img i mode links size extents x = img x := by
  unfold putRecord setMode setLinks setSize setInoNumber setExtentCount set64 set32
  iterate 5 rw [storeNat_apply_of_outside (by omega)]

theorem growParent_apply (h : x < L.recordAt p ∨ L.recordAt p + 64 ≤ x) :
    L.growParent img p x = img x := by
  unfold growParent setLinks setSize set64 set32
  iterate 2 rw [storeNat_apply_of_outside (by omega)]

theorem putExtent_apply (h : x < L.extentAt i ∨ L.extentAt i + 8 ≤ x) :
    L.putExtent img i b x = img x := by
  unfold putExtent setExtentStart setExtentLength set32
  iterate 2 rw [storeNat_apply_of_outside (by omega)]

end Layout

section Dentries

variable {img : Image} {d ino x : Int} {name : Name}

theorem putDentry_apply (hname : name.length < 252) (h : x < d ∨ d + 256 ≤ x) :
    putDentry img d ino name x = img x := by
  unfold putDentry setDentryName setDentryIno set32
  rw [store_apply_of_outside (by rw [length_terminated]; omega),
    storeNat_apply_of_outside (by omega)]

theorem dentryIno_putDentry : dentryIno (putDentry img d ino name) d = uint32 ino := by
  unfold dentryIno putDentry setDentryName setDentryIno
  rw [u32_store_of_disjoint (.inl (le_refl _)), u32_set32_self]

theorem stringAt_putDentry : StringAt (putDentry img d ino name) (d + 4) name :=
  stringAt_store_self

end Dentries

namespace Layout

variable {L : Layout} {img img' : Image} {p i b mode links size extents : Nat} {name : Name}
  {x slot : Int}

theorem putDots_apply (h : x < L.blockAt b ∨ L.blockAt b + 512 ≤ x) :
    L.putDots img i p b x = img x := by
  unfold putDots
  rw [putDentry_apply (by decide) (by omega), putDentry_apply (by decide) (by omega)]

/-! ## The head is left alone -/

theorem recordAt_ge (L : Layout) (i : Nat) : 4096 * (L.inodeTable : Int) ≤ L.recordAt i := by
  unfold recordAt
  omega

theorem extentAt_ge (L : Layout) (i : Nat) : 4096 * (L.inodeTable : Int) ≤ L.extentAt i := by
  have := L.extents_lt
  unfold extentAt
  omega

theorem blockAt_ge (L : Layout) (b : Nat) : 4096 * (L.inodeTable : Int) ≤ L.blockAt b := by
  have := L.extents_lt
  have := L.extentBlocks
  unfold blockAt
  omega

theorem linkedDirectory_head (hname : name.length < 252)
    (hslot : 4096 * (L.inodeTable : Int) ≤ L.newSlot img p) :
    L.SameHead (L.linkedDirectory img p name mode i b) img := by
  have := L.recordAt_ge p
  have := L.recordAt_ge i
  have := L.extentAt_ge i
  have := L.blockAt_ge b
  intro x hlo hhi
  unfold linkedDirectory
  rw [putDentry_apply hname (by omega), putDots_apply (by omega), putRecord_apply (by omega),
    putExtent_apply (by omega), growParent_apply (by omega)]

theorem linkedFile_head (hname : name.length < 252)
    (hslot : 4096 * (L.inodeTable : Int) ≤ L.newSlot img p) :
    L.SameHead (L.linkedFile img p name mode i) img := by
  have := L.recordAt_ge p
  have := L.recordAt_ge i
  intro x hlo hhi
  unfold linkedFile
  rw [putDentry_apply hname (by omega), putRecord_apply (by omega), growParent_apply (by omega)]

/-! ## The calls of the driver -/

theorem initInode_eq (hof : L.Of img) (hi : i ≤ L.inodes) :
    initInode img i mode links size extents = L.putRecord img i mode links size extents := by
  rw [initInode, hof.inodeAddr hi]
  rfl

theorem growParent_of (hof : L.Of img) : L.Of (L.growParent img p) := by
  have := L.recordAt_ge p
  have := L.head_pos
  exact hof.congr fun x _ _ => growParent_apply (by omega)

theorem putExtent_of (hof : L.Of img) : L.Of (L.putExtent img i b) := by
  have := L.extentAt_ge i
  have := L.head_pos
  exact hof.congr fun x _ _ => putExtent_apply (by omega)

theorem putRecord_of (hof : L.Of img) : L.Of (L.putRecord img i mode links size extents) := by
  have := L.recordAt_ge i
  have := L.head_pos
  exact hof.congr fun x _ _ => putRecord_apply (by omega)

theorem linkDirectory_eq (hof : L.Of img) (hp : p ≤ L.inodes) (hi : i ≤ L.inodes)
    (hb : L.data + b < 524288) (hname : name.length < 252)
    (hslot : 4096 * (L.inodeTable : Int) ≤ L.newSlot img p) :
    linkDirectory img p name mode i b =
      setFreeInodesCount (setFreeBlocksCount (L.linkedDirectory img p name mode i b)
        (freeBlocksCount img - 1)) (freeInodesCount img - 1) := by
  have hhead : L.SameHead (L.linkedDirectory img p name mode i b) img :=
    linkedDirectory_head hname hslot
  unfold linkDirectory
  extract_lets parent parentBlock extents byteMore slot img1 img2 newExtent img3 img4 img5
    newEntry img6 img7 img8 img9
  have hparent : parent = L.recordAt p := hof.inodeAddr hp
  have hnew : slot = L.newSlot img p := by
    simp only [slot, parentBlock, extents, byteMore, hparent, hof.extentAddr hp, newSlot]
  have hlinks : inodeLinks img1 parent = inodeLinks img parent :=
    u32_set64_of_disjoint (.inl (by omega))
  have h2 : img2 = L.growParent img p := by
    change setLinks img1 parent (inodeLinks img1 parent + 1) = _
    rw [hlinks]
    simp only [img1, hparent, growParent]
  have hextent : newExtent = L.extentAt i := by
    simp only [newExtent, h2]
    exact (growParent_of hof).extentAddr hi
  have h4 : img4 = L.putExtent (L.growParent img p) i b := by
    simp only [img4, img3, hextent, h2, putExtent]
  have hof4 : L.Of img4 := h4 ▸ putExtent_of (growParent_of hof)
  have h5 : img5 = L.putRecord img4 i mode 2 512 1 := initInode_eq hof4 hi
  have hentry : newEntry = L.blockAt b := by
    simp only [newEntry, h5]
    exact (putRecord_of hof4).dataAddr hb
  have h8 : img8 = L.linkedDirectory img p name mode i b := by
    simp only [img8, img7, img6, hentry, h5, h4, hnew, linkedDirectory, putDots]
  have hblocks : freeBlocksCount img8 = freeBlocksCount img := by
    rw [h8]
    exact hhead.freeBlocksCount
  have hinodes : freeInodesCount img9 = freeInodesCount img := by
    simp only [img9, freeInodesCount_setFreeBlocksCount, h8]
    exact hhead.freeInodesCount
  rw [hinodes]
  simp only [img9, hblocks]
  rw [h8]

theorem linkFile_eq (hof : L.Of img) (hp : p ≤ L.inodes) (hi : i ≤ L.inodes) :
    linkFile img p name mode i = L.linkedFile img p name mode i := by
  unfold linkFile
  extract_lets parent parentBlock extents byteMore slot img1 img2 img3
  have hparent : parent = L.recordAt p := hof.inodeAddr hp
  have hnew : slot = L.newSlot img p := by
    simp only [slot, parentBlock, extents, byteMore, hparent, hof.extentAddr hp, newSlot]
  have hsize : inodeSize img1 parent = inodeSize img parent :=
    u64_set32_of_disjoint (.inr (by omega))
  have h2 : img2 = L.growParent img p := by
    change setSize img1 parent (inodeSize img1 parent + 256) = _
    rw [hsize]
    simp only [img1, hparent, growParent, setSize, setLinks, set32, set64, storeNat]
    exact store_comm (.inl (by rw [length_leBytes]; omega))
  have h3 : img3 = L.putRecord img2 i mode 1 0 0 := initInode_eq (h2 ▸ growParent_of hof) hi
  simp only [h3, h2, hnew, linkedFile]

/-- A new entry goes into the last block of the directory. -/
theorem newSlot_eq {pn : Node} (h : pn.At L img p) (hok : pn.Ok L) (hof : L.Of img)
    (hne : pn.extents ≠ []) :
    L.newSlot img p = L.blockAt pn.lastBlock + (pn.size % 4096 : Nat) := by
  obtain ⟨s, c, hs, hc, hsum, hmem⟩ := h.lastExtent hok hne
  have hlt := hok.blocks_lt _ hmem
  have hstart : int32 (s : Int) = s := int32_of_bounds (by omega) (by omega)
  have hcount : int32 (c : Int) = c := int32_of_bounds (by omega) (by omega)
  have hblock : (L.data : Int) + s + c - 1 = (L.data + pn.lastBlock : Nat) := by omega
  rw [newSlot, appendSlot, h.count, h.size, hof.startData, hs, hc, hstart, hcount, hblock,
    blockOff_of_bounds (by omega) (by omega), blockAt]
  omega

end Layout

/-! ## Allocation and linking -/

namespace WellFormed

variable {L : Layout} {img img' : Image} {nodes : Nodes} {pn : Node} {p mode : Nat} {t : Target}
  {stale : Nat → UInt8}

/-- Stores to the bitmaps leave the nodes where they are. -/
theorem hold_of_bitmap (hold : Holds L img nodes) (hclosed : Closed nodes L)
    (h : ∀ x, x ≠ L.inodeMapAt → x ≠ L.dataMapAt → img' x = img x) : Holds L img' nodes := by
  have hinode := L.inodeMapAt_ge
  have hdata := L.dataMapAt_ge
  have hlt := L.inodeMapAt_lt
  have hlast := L.dataMap_lt
  have hmap : L.dataMapAt = 4096 * (L.dataMap : Int) := rfl
  refine hold.congr hclosed (hold.of.congr fun x _ _ => h x (by omega) (by omega)) ?_
  intro x hx
  exact h x (by omega) (by omega)

/-- What an allocating `a1fs_mkdir` does: it takes an inode and a block as far as the
allocation loops get, and links the new directory. -/
theorem mkdir_run (wf : WellFormed L img nodes) (hp : nodes.resolve t.dirs = (p : Int))
    (hpn : nodes p = some pn) (hdir : sIsDir pn.mode) (hlen : t.path.length < 100)
    (hbuf : BufferReads stale t.dirs)
    (hfree : ¬ (freeInodesCount img = 0 ∨ freeBlocksCount img = 0)) (mode : Nat) :
    ∃ i b img₁ img₂, takeFreeBit img L.inodeMapAt = (img₁, i) ∧
      takeFreeBit img₁ L.dataMapAt = (img₂, b) ∧ i ≤ L.inodes ∧ b ≤ L.blocks ∧
      Holds L img₂ nodes ∧
      L.SameHead (L.linkedDirectory img₂ p t.name (mode ||| sIfDir) i b) img₂ ∧
      a1fsMkdir img t.path mode stale =
        .ok (0, setFreeInodesCount (setFreeBlocksCount
          (L.linkedDirectory img₂ p t.name (mode ||| sIfDir) i b) (freeBlocksCount img₂ - 1))
            (freeInodesCount img₂ - 1)) := by
  obtain ⟨⟨img₁, i⟩, htake₁⟩ : ∃ r, takeFreeBit img L.inodeMapAt = r := ⟨_, rfl⟩
  obtain ⟨⟨img₂, b⟩, htake₂⟩ : ∃ r, takeFreeBit img₁ L.dataMapAt = r := ⟨_, rfl⟩
  have hold₁ : Holds L img₁ nodes :=
    hold_of_bitmap wf.hold wf.closed fun x hx _ => takeFreeBit_apply htake₁ hx
  have hold₂ : Holds L img₂ nodes :=
    hold_of_bitmap hold₁ wf.closed fun x _ hx => takeFreeBit_apply htake₂ hx
  obtain ⟨hi, hibits⟩ := takeFreeBit_before htake₁
  obtain ⟨hb, hbbits⟩ := takeFreeBit_before htake₂
  have hinode : i ≤ L.inodes := wf.clearInode_le hi hibits
  have hblock : b ≤ L.blocks := by
    apply wf.clearBlock_le hb
    intro j hj
    have hlow := L.inodeMapAt_lt
    rw [← hbbits j hj]
    exact (bitSet_congr (takeFreeBit_apply htake₁ (by omega))).symm
  have hlast := wf.last_lt
  have hok := wf.closed.ok p pn hpn
  have hslot := Layout.newSlot_eq (hold₂.nodeAt p pn hpn) hok hold₂.of
    (Node.extents_ne_nil (wf.blocks_ne_nil hpn hdir))
  have hge := L.blockAt_ge pn.lastBlock
  have hname := t.name_length hlen
  have hhead : 4096 * (L.inodeTable : Int) ≤ L.newSlot img₂ p := by omega
  refine ⟨i, b, img₁, img₂, htake₁, htake₂, hinode, hblock, hold₂,
    Layout.linkedDirectory_head (by omega) hhead, ?_⟩
  have hparent : newEntryParent img₂ stale t.path = .ok ((p : Int), t.name) := by
    rw [newEntryParent_eq hlen hbuf, Target.parent,
      hold₂.pathInode wf.closed t.dir_component t.length_parent_lt, hp]
    rfl
  rw [a1fsMkdir, if_neg hfree]
  simp only [wf.of.inodeMapAddr, htake₁, hold₁.of.dataMapAddr, htake₂, hparent]
  rw [ok_bind]
  simp only
  rw [Layout.linkDirectory_eq hold₂.of (wf.closed.inode_lt p pn hpn).le hinode (by omega)
    (by omega) hhead]

/-- What an allocating `a1fs_create` does after it has decremented the counter. -/
theorem create_run (wf : WellFormed L img nodes) (hp : nodes.resolve t.dirs = (p : Int))
    (hpn : nodes p = some pn) (hdir : sIsDir pn.mode) (hlen : t.path.length < 100)
    (hbuf : BufferReads stale t.dirs) (hreg : sIsReg mode)
    (hfree : ¬ (uint32 (freeInodesCount img - 1) = 0 ∨ freeBlocksCount img = 0)) :
    ∃ i img₁, takeFreeBit (setFreeInodesCount img (freeInodesCount img - 1)) L.inodeMapAt =
        (img₁, i) ∧ i ≤ L.inodes ∧ Holds L img₁ nodes ∧
      L.SameHead (L.linkedFile img₁ p t.name mode i) img₁ ∧
      a1fsCreate img t.path mode stale = .ok (0, L.linkedFile img₁ p t.name mode i) := by
  obtain ⟨img₀, himg₀⟩ : ∃ r, setFreeInodesCount img (freeInodesCount img - 1) = r := ⟨_, rfl⟩
  obtain ⟨⟨img₁, i⟩, htake⟩ : ∃ r, takeFreeBit img₀ L.inodeMapAt = r := ⟨_, rfl⟩
  have hmap := L.inodeMapAt_ge
  have hpos := L.head_pos
  have hof₀ : L.Of img₀ := himg₀ ▸ wf.of.setFreeInodesCount
  have hold₀ : Holds L img₀ nodes := by
    refine wf.hold.congr wf.closed hof₀ fun x hx => ?_
    rw [← himg₀]
    exact setFreeInodesCount_apply (by omega)
  have hold₁ : Holds L img₁ nodes :=
    hold_of_bitmap hold₀ wf.closed fun x hx _ => takeFreeBit_apply htake hx
  obtain ⟨hi, hibits⟩ := takeFreeBit_before htake
  have hinode : i ≤ L.inodes := by
    apply wf.clearInode_le hi
    intro j hj
    rw [← hibits j hj, ← himg₀]
    exact (bitSet_setFreeInodesCount hmap).symm
  have hok := wf.closed.ok p pn hpn
  have hslot := Layout.newSlot_eq (hold₁.nodeAt p pn hpn) hok hold₁.of
    (Node.extents_ne_nil (wf.blocks_ne_nil hpn hdir))
  have hge := L.blockAt_ge pn.lastBlock
  have hname := t.name_length hlen
  have hhead : 4096 * (L.inodeTable : Int) ≤ L.newSlot img₁ p := by omega
  refine ⟨i, img₁, himg₀ ▸ htake, hinode, hold₁, Layout.linkedFile_head (by omega) hhead, ?_⟩
  have hparent : newEntryParent img₁ stale t.path = .ok ((p : Int), t.name) := by
    rw [newEntryParent_eq hlen hbuf, Target.parent,
      hold₁.pathInode wf.closed t.dir_component t.length_parent_lt, hp]
    rfl
  have hcount : freeInodesCount img₀ = uint32 (freeInodesCount img - 1) := by
    rw [← himg₀, freeInodesCount_setFreeInodesCount]
  have hblocks : freeBlocksCount img₀ = freeBlocksCount img := by
    rw [← himg₀, freeBlocksCount_setFreeInodesCount]
  rw [a1fsCreate, if_pos hreg]
  simp only [himg₀, hcount, hblocks]
  rw [if_neg hfree]
  simp only [hof₀.inodeMapAddr, htake, hparent]
  rw [ok_bind]
  simp only
  rw [Layout.linkFile_eq hold₁.of (wf.closed.inode_lt p pn hpn).le hinode]

end WellFormed

end UoftOs.FileSystem
