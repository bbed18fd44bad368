import UoftOs.FileSystem.Contents

/-!
# What the calls do to the counters

The two counters and the two bitmaps are updated at separate places of each call.
The lemmas give the tally that a call leaves, and the states in which it faults.
-/

namespace UoftOs.FileSystem

open Lib.ByteMemory Lib.Frames

variable {L : Layout} {img img' : Image} {nodes : Nodes} {nd pn : Node} {i p mode : Nat}
  {t : Target} {stale : Nat → UInt8} {P : Image → Prop} {c : Call} {r : Int}

/-- The call ends without a fault in an image with the property. -/
def Call.Leaves (img : Image) (c : Call) (P : Image → Prop) : Prop :=
  ∃ r img', c.run img = .ok (r, img') ∧ P img'

theorem Call.leaves_iff (h : c.run img = .ok (r, img')) : c.Leaves img P ↔ P img' := by
  constructor
  · rintro ⟨r', img'', hrun, hP⟩
    rw [h] at hrun
    cases hrun
    exact hP
  · intro hP
    exact ⟨r, img', h, hP⟩

theorem Call.not_leaves {f : Fault} (h : c.run img = .error f) : ¬ c.Leaves img P := by
  rintro ⟨r, img', hrun, _⟩
  rw [h] at hrun
  cases hrun

/-- The inode that a path leads to has the property. -/
def Leads (img : Image) (path : Path) (Q : Int → Prop) : Prop :=
  ∃ i, pathInode img path = .ok i ∧ Q i

theorem leads_iff {path : Path} {Q : Int → Prop} {j : Int} (h : pathInode img path = .ok j) :
    Leads img path Q ↔ Q j := by
  constructor
  · rintro ⟨k, hk, hQ⟩
    rw [h] at hk
    cases hk
    exact hQ
  · intro hQ
    exact ⟨j, h, hQ⟩

/-- Where `a1fs_unlink` looks for the record of an inode. -/
def strayAddr (img : Image) (p : Int) : Int := blockOff (startInode img + p)

/-- A call that gets to it finds the parent directory of its path. For an `unlink` the
extent count in the place of the parent's record is not larger than the parent's. -/
def Call.FindsParent (img : Image) : Call → Prop
  | .mkdir t _ stale =>
      freeInodesCount img = 0 ∨ freeBlocksCount img = 0 ∨ BufferReads stale t.dirs
  | .create t _ stale =>
      uint32 (freeInodesCount img - 1) = 0 ∨ freeBlocksCount img = 0 ∨ BufferReads stale t.dirs
  | .rmdir t stale =>
      (Leads img t.path fun i => inodeLinks img (inodeAddr img i) ≠ 2) ∨
        (t.dirs ≠ [] → BufferReads stale t.dirs)
  | .unlink t stale =>
      (t.dirs ≠ [] → BufferReads stale t.dirs) ∧
        Leads img t.parent fun p =>
          extentCount img (strayAddr img p) ≤ extentCount img (inodeAddr img p)
  | .write .. => True
  | .truncate .. => True

/-- A path of 100 bytes does not fit in `path_cp`. -/
theorem splitPath_long {path : Path} (h : ¬ path.length < 100) : splitPath path = .error .overflow := by
  rw [splitPath, if_pos (by omega)]

theorem newEntryParent_long {path : Path} (h : ¬ path.length < 100) :
    newEntryParent img stale path = .error .overflow := by
  rw [newEntryParent, splitPath_long h]
  rfl

theorem oldEntryParent_long {path : Path} (h : ¬ path.length < 100) :
    oldEntryParent img stale path = .error .overflow := by
  rw [oldEntryParent, splitPath_long h]
  rfl

theorem Layout.Of.strayAddr (hof : L.Of img) (hp : p < L.inodes) :
    strayAddr img p = L.strayAt p := by
  have htable := L.extents_lt
  have hroom := L.extentBlocks
  have hdata := L.data_lt
  rw [FileSystem.strayAddr, hof.startInode, blockOff_of_bounds (by omega) (by omega),
    Layout.strayAt]

/-- A refused `a1fs_create` has decremented the counter before. -/
theorem create_refused {path : Path} (hreg : sIsReg mode)
    (hfree : uint32 (freeInodesCount img - 1) = 0 ∨ freeBlocksCount img = 0) :
    a1fsCreate img path mode stale =
      .ok (-enomem, setFreeInodesCount img (freeInodesCount img - 1)) := by
  rw [a1fsCreate, if_pos hreg]
  simp only [freeInodesCount_setFreeInodesCount, freeBlocksCount_setFreeInodesCount]
  rw [if_pos hfree]

/-! ## Paths that are too long -/

section LongPaths

variable (hlen : ¬ t.path.length < 100)
include hlen

theorem mkdir_long (hfree : ¬ (freeInodesCount img = 0 ∨ freeBlocksCount img = 0)) :
    a1fsMkdir img t.path mode stale = .error .overflow := by
  rw [a1fsMkdir, if_neg hfree]
  simp only
  rw [newEntryParent_long hlen]
  rfl

theorem create_long (hreg : sIsReg mode)
    (hfree : ¬ (uint32 (freeInodesCount img - 1) = 0 ∨ freeBlocksCount img = 0)) :
    a1fsCreate img t.path mode stale = .error .overflow := by
  rw [a1fsCreate, if_pos hreg]
  simp only [freeInodesCount_setFreeInodesCount, freeBlocksCount_setFreeInodesCount]
  rw [if_neg hfree, newEntryParent_long hlen]
  rfl

theorem rmdir_long {i : Int} (hi : pathInode img t.path = .ok i)
    (hlinks : inodeLinks img (inodeAddr img i) = 2) :
    a1fsRmdir img t.path stale = .error .overflow := by
  rw [a1fsRmdir, if_neg t.path_ne_root, hi, ok_bind]
  simp only
  rw [if_neg (by simp [hlinks]), oldEntryParent_long hlen]
  rfl

theorem unlink_long {i : Int} (hi : pathInode img t.path = .ok i) :
    a1fsUnlink img t.path stale = .error .overflow := by
  rw [a1fsUnlink, hi, ok_bind]
  simp only
  rw [oldEntryParent_long hlen]
  rfl

end LongPaths

namespace WellFormed

/-! ## New entries -/

section NewEntries

variable (wf : WellFormed L img nodes) (hp : nodes.resolve t.dirs = (p : Int))
  (hpn : nodes p = some pn) (hdir : sIsDir pn.mode) (hlen : t.path.length < 100)
  (hbuf : BufferReads stale t.dirs)
include wf hp hpn hdir hlen hbuf

/-- The tally after an allocating `a1fs_mkdir`. -/
theorem mkdir_tally (hfree : ¬ (freeInodesCount img = 0 ∨ freeBlocksCount img = 0)) (mode : Nat) :
    ∃ i b img', a1fsMkdir img t.path mode stale = .ok (0, img') ∧ L.Of img' ∧
      (i < 8 ↔ RoomInFirstByte img L.inodeMapAt) ∧ (b < 8 ↔ RoomInFirstByte img L.dataMapAt) ∧
      L.tally img' = ⟨uint32 (freeBlocksCount img - 1),
        (L.tally img).usedBlocks + (if b < 8 then 1 else 0), uint32 (freeInodesCount img - 1),
        (L.tally img).usedInodes + (if i < 8 then 1 else 0)⟩ := by
  obtain ⟨i, b, img₁, img₂, htake₁, htake₂, _, _, hold₂, hhead, hrun⟩ :=
    wf.mkdir_run hp hpn hdir hlen hbuf hfree mode
  have htally : L.tally img₂ = _ := Layout.tally_takeBlock htake₂
  rw [Layout.tally_takeInode htake₁] at htally
  have hblocks : freeBlocksCount img₂ = freeBlocksCount img := congrArg Tally.freeBlocks htally
  have hinodes : freeInodesCount img₂ = freeInodesCount img := congrArg Tally.freeInodes htally
  have hdata : RoomInFirstByte img₁ L.dataMapAt ↔ RoomInFirstByte img L.dataMapAt := by
    have hlow := L.inodeMapAt_lt
    exact roomInFirstByte_congr fun k _ => bitSet_congr (takeFreeBit_apply htake₁ (by omega))
  refine ⟨i, b, _, hrun, (hhead.of hold₂.of).setFreeBlocksCount.setFreeInodesCount,
    takeFreeBit_room htake₁, (takeFreeBit_room htake₂).trans hdata, ?_⟩
  rw [Layout.tally_setFreeInodesCount, Layout.tally_setFreeBlocksCount, hhead.tally, htally,
    hblocks, hinodes]

/-- The tally after an allocating `a1fs_create`. -/
theorem create_tally (hreg : sIsReg mode)
    (hfree : ¬ (uint32 (freeInodesCount img - 1) = 0 ∨ freeBlocksCount img = 0)) :
    ∃ i img', a1fsCreate img t.path mode stale = .ok (0, img') ∧ L.Of img' ∧
      (i < 8 ↔ RoomInFirstByte img L.inodeMapAt) ∧
      L.tally img' = { L.tally img with
        freeInodes := uint32 (freeInodesCount img - 1)
        usedInodes := (L.tally img).usedInodes + (if i < 8 then 1 else 0) } := by
  obtain ⟨i, img₁, htake, _, hold₁, hhead, hrun⟩ :=
    wf.create_run hp hpn hdir hlen hbuf hreg hfree
  refine ⟨i, _, hrun, hhead.of hold₁.of, (takeFreeBit_room htake).trans ?_, ?_⟩
  · exact roomInFirstByte_congr fun k _ => bitSet_setFreeInodesCount L.inodeMapAt_ge
  · rw [hhead.tally, Layout.tally_takeInode htake, Layout.tally_setFreeInodesCount]

end NewEntries

/-! ## Removed entries -/

section Removals

variable (wf : WellFormed L img nodes) (hi : nodes.resolve (t.dirs ++ [t.name]) = (i : Int))
  (hnd : nodes i = some nd) (hlen : t.path.length < 100)
  (hbuf : t.dirs ≠ [] → BufferReads stale t.dirs)
  (hp : nodes.resolve t.dirs = (p : Int)) (hpn : nodes p = some pn)
include wf hi hnd hlen hbuf hp hpn

omit hi hnd hlen hbuf hpn in
theorem pathInode_parent : pathInode img t.parent = .ok (p : Int) := by
  have hpath := wf.hold.pathInode wf.closed t.dir_component t.length_parent_lt
  rw [hp] at hpath
  exact hpath

omit hi hlen hbuf hp in
/-- The loop over the parent's slots reads what it would have read before the call. -/
theorem rmdir_reads :
    RemovalReads (L.released id nd.blocks (L.freedInode img i)) (L.recordAt p) (L.extentAt p)
      t.name ↔ RemovalReads img (L.recordAt p) (L.extentAt p) t.name := by
  have htail := released_freedInode_sameTail wf hnd headUpdate_id
  have hat := wf.hold.nodeAt p pn hpn
  have hrecord := L.recordAt_ge p
  have hextent := L.extentAt_ge p
  have hroom := L.extentBlocks
  have htable := L.extents_lt
  refine removalReads_congr hat.extents (wf.closed.ok p pn hpn) wf.of (le_of_eq hat.count)
    (released_hold wf hnd headUpdate_id).of ?_ ?_ ?_
  · exact fun x hlo _ => htail x (by omega)
  · exact fun x hlo _ => htail x (by omega)
  · exact fun x hlo => htail x (by omega)

/-- The tally after an `a1fs_rmdir` that is not refused. -/
theorem rmdir_tally (hlinks : nd.links = 2)
    (hreads : RemovalReads img (L.recordAt p) (L.extentAt p) t.name) :
    ∃ img', a1fsRmdir img t.path stale = .ok (0, img') ∧ L.Of img' ∧
      (L.tally img').freeBlocks = freeBlocksCount img ∧
      (L.tally img').usedBlocks + nd.blocks.length = (L.tally img).usedBlocks ∧
      (L.tally img').freeInodes = uint32 (freeInodesCount img + 1) ∧
      (L.tally img').usedInodes + 1 = (L.tally img).usedInodes := by
  have hold := released_hold wf hnd headUpdate_id
  have hat := hold.nodeAt p pn hpn
  have hrecord := L.recordAt_ge p
  obtain ⟨img₁, found, hremove⟩ := removeDentry_ok ((rmdir_reads wf hnd hpn).mpr hreads)
  have hhead : L.SameHead img₁ (L.released id nd.blocks (L.freedInode img i)) :=
    removeDentry_head hat.extents (wf.closed.ok p pn hpn) hold.of (le_of_eq hat.count) hrecord hremove
  obtain ⟨hblocks, hinodes, hfree⟩ := released_tally wf hnd headUpdate_id
  have hcount : (L.tally (L.released id nd.blocks (L.freedInode img i))).freeBlocks =
      freeBlocksCount img := by
    simp only [Layout.tally]
    rw [released_id_freeBlocks, Layout.freedInode, freeBlocksCount_setFreeInodesCount,
      freeBlocksCount_modify L.inodeMapAt_ge]
  have hrun := wf.rmdir_run hi hnd hlen hbuf hp hpn hlinks
  rw [hremove, ok_bind] at hrun
  have hlast : L.SameHead (if found = true then
      setLinks img₁ (L.recordAt p) (inodeLinks img₁ (L.recordAt p) - 1) else img₁)
        (L.released id nd.blocks (L.freedInode img i)) := by
    cases found with
    | true => exact hhead.setLinks hrecord
    | false => exact hhead
  refine ⟨_, hrun, hlast.of hold.of, ?_⟩
  rw [hlast.tally]
  exact ⟨hcount, hblocks, hfree, hinodes⟩

/-- The name in the place of the last entry has no end. -/
theorem rmdir_fault (hlinks : nd.links = 2)
    (hreads : ¬ RemovalReads img (L.recordAt p) (L.extentAt p) t.name) :
    ∃ f, a1fsRmdir img t.path stale = .error f := by
  rw [← rmdir_reads wf hnd hpn] at hreads
  obtain ⟨f, hf⟩ := removeDentry_fault hreads
  refine ⟨f, ?_⟩
  rw [wf.rmdir_run hi hnd hlen hbuf hp hpn hlinks, hf]
  rfl

omit hi hlen hbuf hp in
/-- The stray record from its size on, the extents of the parent and the data are those
from before the call. -/
theorem unlink_reads (hcount : extentCount img (L.strayAt p) ≤ pn.extents.length) :
    RemovalReads (L.unlinked img nd i p) (L.strayAt p) (L.extentAt p) t.name ↔
      RemovalReads img (L.strayAt p) (L.extentAt p) t.name := by
  have htail := released_freedInode_sameTail wf hnd headUpdate_count
  have hold := released_hold wf hnd headUpdate_count
  have hat := wf.hold.nodeAt p pn hpn
  have hplt := wf.closed.inode_lt p pn hpn
  have hroom := L.extentBlocks
  have htable := L.extents_lt
  have hstray : L.strayAt p = 4096 * (L.inodeTable + p) := rfl
  have hextent : L.extentAt p = 4096 * (L.extents + p) := rfl
  have hhead : L.SameHead (L.unlinked img nd i p)
      (L.released countBlock nd.blocks (L.freedInode img i)) :=
    (Layout.SameHead.refl L _).setLinks (by omega)
  have hlinks : ∀ x, x < L.strayAt p + 4 ∨ L.strayAt p + 8 ≤ x → L.unlinked img nd i p x =
      L.released countBlock nd.blocks (L.freedInode img i) x := fun x hx =>
    storeNat_apply_of_outside (by omega)
  refine removalReads_congr hat.extents (wf.closed.ok p pn hpn) wf.of hcount (hhead.of hold.of) ?_ ?_ ?_
  · intro x hlo _
    rw [hlinks x (by omega), htail x (by omega)]
  · intro x hlo hhi
    rw [hlinks x (by omega), htail x (by omega)]
  · intro x hlo
    rw [hlinks x (by omega), htail x (by omega)]

/-- The tally after an `a1fs_unlink`. -/
theorem unlink_tally (hcount : extentCount img (L.strayAt p) ≤ pn.extents.length)
    (hreads : RemovalReads img (L.strayAt p) (L.extentAt p) t.name) :
    ∃ img', a1fsUnlink img t.path stale = .ok (0, img') ∧ L.Of img' ∧
      (L.tally img').freeBlocks = uint32 (freeBlocksCount img + nd.blocks.length) ∧
      (L.tally img').usedBlocks + nd.blocks.length = (L.tally img).usedBlocks ∧
      (L.tally img').freeInodes = uint32 (freeInodesCount img + 1) ∧
      (L.tally img').usedInodes + 1 = (L.tally img).usedInodes := by
  have htail := released_freedInode_sameTail wf hnd headUpdate_count
  have hold := released_hold wf hnd headUpdate_count
  have hplt := wf.closed.inode_lt p pn hpn
  have hroom := L.extentBlocks
  have htable := L.extents_lt
  have hstray : L.strayAt p = 4096 * (L.inodeTable + p) := rfl
  have hextent : L.extentAt p = 4096 * (L.extents + p) := rfl
  have hok := wf.closed.ok p pn hpn
  have hlinks : L.SameHead (L.unlinked img nd i p)
      (L.released countBlock nd.blocks (L.freedInode img i)) :=
    (Layout.SameHead.refl L _).setLinks (by omega)
  have hslot := hok.extents_le
  have hge : 4096 * (L.inodeTable : Int) ≤ L.strayAt p := by omega
  have hext : pn.ExtentsAt L (L.unlinked img nd i p) p := by
    intro k hk
    rw [← ((hold.nodeAt p pn hpn).extents k hk).1, ← ((hold.nodeAt p pn hpn).extents k hk).2]
    have hsame : ∀ x, L.extentAt p ≤ x → x < L.extentAt p + 4096 → L.unlinked img nd i p x =
        L.released countBlock nd.blocks (L.freedInode img i) x := fun x _ _ =>
      storeNat_apply_of_outside (by omega)
    exact ⟨u32_congr fun x _ _ => hsame x (by omega) (by omega),
      u32_congr fun x _ _ => hsame x (by omega) (by omega)⟩
  have hcount' : extentCount (L.unlinked img nd i p) (L.strayAt p) =
      extentCount img (L.strayAt p) := by
    apply i32_congr
    intro x hlo _
    have hkeep : L.unlinked img nd i p x =
        L.released countBlock nd.blocks (L.freedInode img i) x :=
      storeNat_apply_of_outside (by omega)
    rw [hkeep, htail x (by omega)]
  obtain ⟨img₁, found, hremove⟩ := removeDentry_ok ((unlink_reads wf hnd hpn hcount).mpr hreads)
  have hhead : L.SameHead img₁ (L.unlinked img nd i p) :=
    removeDentry_head hext hok (hlinks.of hold.of) (hcount'.trans_le hcount) hge hremove
  obtain ⟨hblocks, hinodes, hfree⟩ := released_tally wf hnd headUpdate_count
  have hfreed : (L.tally (L.released countBlock nd.blocks (L.freedInode img i))).freeBlocks =
      uint32 (freeBlocksCount img + nd.blocks.length) := by
    simp only [Layout.tally]
    rw [released_count_freeBlocks, Layout.freedInode, freeBlocksCount_setFreeInodesCount,
      freeBlocksCount_modify L.inodeMapAt_ge]
  have hrun := wf.unlink_run hi hnd hlen hbuf hp hpn
  rw [hremove, ok_bind] at hrun
  have hlast := hhead.trans hlinks
  refine ⟨_, hrun, hlast.of hold.of, ?_⟩
  rw [hlast.tally]
  exact ⟨hfreed, hblocks, hfree, hinodes⟩

/-- The name in the place of the last entry has no end. -/
theorem unlink_fault (hcount : extentCount img (L.strayAt p) ≤ pn.extents.length)
    (hreads : ¬ RemovalReads img (L.strayAt p) (L.extentAt p) t.name) :
    ∃ f, a1fsUnlink img t.path stale = .error f := by
  rw [← unlink_reads wf hnd hpn hcount] at hreads
  obtain ⟨f, hf⟩ := removeDentry_fault hreads
  have hrun := wf.unlink_run hi hnd hlen hbuf hp hpn
  refine ⟨f, ?_⟩
  rw [hrun, hf]
  rfl

end Removals

/-! ## Writes -/

section Writes

variable (wf : WellFormed L img nodes) (hi : nodes.resolve (t.dirs ++ [t.name]) = (i : Int))
  (hnd : nodes i = some nd) {offset : Nat}
include wf

/-- The blocks of a node are blocks of the layout. -/
theorem length_blocks_le (hnd : nodes i = some nd) : nd.blocks.length ≤ L.blocks := by
  have hsub : nd.blocks.toFinset ⊆ Finset.range L.blocks := by
    intro b hb
    rw [Finset.mem_range]
    exact wf.block_lt i nd hnd b (List.mem_toFinset.mp hb)
  have hcard := Finset.card_le_card hsub
  rwa [List.toFinset_card_of_nodup (wf.nodup i nd hnd), Finset.card_range] at hcard

include hnd

theorem int32_size : int32 (inodeSize img (L.recordAt i)) = nd.size := by
  have hlen := wf.length_blocks_le hnd
  have hblocks := wf.blocks_le
  have hsize := wf.size_le i nd hnd
  rw [(wf.hold.nodeAt i nd hnd).size]
  exact int32_of_bounds (by omega) (by omega)

/-- The last block and the one behind it can be addressed. -/
theorem lastBlock_lt (hext : nd.extents ≠ []) :
    nd.lastBlock ∈ nd.blocks ∧ L.data + (nd.lastBlock + 1) < 524288 := by
  obtain ⟨s, c, _, _, _, hmem⟩ :=
    (wf.hold.nodeAt i nd hnd).lastExtent (wf.closed.ok i nd hnd) hext
  have hlt := wf.block_lt i nd hnd _ hmem
  have hlast := wf.last_lt
  exact ⟨hmem, by omega⟩

include hi

/-- The tally after a write to a file with extents. -/
theorem write_more_tally (hext : nd.extents ≠ []) (hgap : GapFits img (L.recordAt i) offset)
    (buf : List UInt8) :
    ∃ img', a1fsWrite img t.path buf offset = .ok (int32 buf.length, img') ∧ L.Of img' ∧
      L.tally img' = L.tally img := by
  obtain ⟨img', hinto⟩ : ∃ img', writeInto img (L.recordAt i) (nd.lastBlock + 1 : Nat) buf offset =
      .ok img' := by
    rcases writeInto_cases (w := (nd.lastBlock + 1 : Nat)) hgap with ⟨_, h⟩ | ⟨_, h⟩
    · exact ⟨_, h⟩
    · exact ⟨_, h⟩
  obtain ⟨_, hlast⟩ := wf.lastBlock_lt hnd hext
  have hsize := wf.int32_size hnd
  have hhead : L.SameHead img' img :=
    writeInto_head wf.of (L.recordAt_ge i) (by omega) ⟨_, rfl, hlast⟩ hinto
  refine ⟨img', ?_, hhead.of wf.of, hhead.tally⟩
  rw [wf.write_more hi hnd hext, hinto]
  rfl

omit hi in
/-- The first block is taken from the bitmap and the counter. -/
theorem giveFirstBlock_tally {k : Nat} (hleast : LeastClear img L.dataMapAt k) :
    let img' := giveFirstBlock img (L.recordAt i) (L.extentAt i) L.dataMapAt (k % 8 : Nat)
    L.Of img' ∧ inodeSize img' (L.recordAt i) = inodeSize img (L.recordAt i) ∧
      L.tally img' = { L.tally img with
        freeBlocks := uint32 (freeBlocksCount img - 1)
        usedBlocks := (L.tally img).usedBlocks + (if k < 8 then 1 else 0) } := by
  intro img'
  have hrecord := L.recordAt_ge i
  have hextent := L.extentAt_ge i
  have hlt := wf.closed.inode_lt i nd hnd
  have hrecords := L.records
  have hrecordAt : L.recordAt i = 4096 * L.inodeTable + 64 * i := rfl
  have hextentAt : L.extentAt i = 4096 * (L.extents + i) := rfl
  have hpos := L.head_pos
  obtain ⟨img₁, himg₁⟩ : ∃ img₁, modify img L.dataMapAt (k % 8 : Nat) true = img₁ := ⟨_, rfl⟩
  have htake : takeFreeBit img L.dataMapAt = (img₁, k) := by
    rw [hleast.takeFreeBit, himg₁]
  have htail : L.SameTail img₁ img := himg₁ ▸ Layout.sameTail_modify_dataMap (by omega)
  have hof : L.Of img₁ := himg₁ ▸ wf.of.modify L.dataMapAt_ge
  obtain ⟨img₂, himg₂⟩ : ∃ img₂, setExtentCount (setExtentLength (setExtentStart img₁ (L.extentAt i)
    0 (k % 8 : Nat)) (L.extentAt i) 0 1) (L.recordAt i) 1 = img₂ := ⟨_, rfl⟩
  have hhead : L.SameHead img₂ img₁ := by
    rw [← himg₂]
    exact (((Layout.SameHead.refl L img₁).set32 (.inl (by omega))).set32
      (.inl (by omega))).setExtentCount hrecord
  have hgive : img' = setFreeBlocksCount img₂ (freeBlocksCount img₂ - 1) := by
    rw [← himg₂, ← himg₁]
    rfl
  have htally : L.tally img₂ = _ := hhead.tally.trans (Layout.tally_takeBlock htake)
  have hcount : freeBlocksCount img₂ = freeBlocksCount img := congrArg Tally.freeBlocks htally
  refine ⟨hgive ▸ (hhead.of hof).setFreeBlocksCount, ?_, ?_⟩
  · rw [hgive]
    apply u64_congr
    intro x hlo hhi
    rw [setFreeBlocksCount_apply (by omega), ← himg₂, ← htail x (by omega)]
    unfold setExtentCount setExtentLength setExtentStart set32
    rw [storeNat_apply_of_outside (by omega), storeNat_apply_of_outside (by omega),
      storeNat_apply_of_outside (by omega)]
  · rw [hgive, Layout.tally_setFreeBlocksCount, htally, hcount]

/-- The tally after a first write. The bit that is set may have been set before. -/
theorem write_first_tally (hext : nd.extents = []) {k : Nat}
    (hleast : LeastClear img L.dataMapAt k) (hgap : GapFits img (L.recordAt i) offset)
    (buf : List UInt8) :
    ∃ img', a1fsWrite img t.path buf offset = .ok (int32 buf.length, img') ∧ L.Of img' ∧
      L.tally img' = { L.tally img with
        freeBlocks := uint32 (freeBlocksCount img - 1)
        usedBlocks := (L.tally img).usedBlocks + (if k < 8 then 1 else 0) } := by
  obtain ⟨hof, hsize, htally⟩ := wf.giveFirstBlock_tally hnd hleast
  have hrun : a1fsWrite img t.path buf offset = _ := wf.write_first hi hnd hext
  have hne : ((k % 8 : Nat) : Int) ≠ -1 := by omega
  rw [hleast.findNextBit, if_neg hne] at hrun
  revert hof hsize htally hrun
  generalize giveFirstBlock img (L.recordAt i) (L.extentAt i) L.dataMapAt (k % 8 : Nat) = img₁
  intro hof hsize htally hrun
  have hgap₁ : GapFits img₁ (L.recordAt i) offset := by
    unfold GapFits
    rw [hsize]
    exact hgap
  obtain ⟨img', hinto⟩ : ∃ img', writeInto img₁ (L.recordAt i) (k % 8 : Nat) buf offset =
      .ok img' := by
    rcases writeInto_cases (w := (k % 8 : Nat)) hgap₁ with ⟨_, h⟩ | ⟨_, h⟩
    · exact ⟨_, h⟩
    · exact ⟨_, h⟩
  have hlast := wf.last_lt
  have hlen := wf.int32_size hnd
  have hle := wf.clearBlock_le hleast.1.le hleast.2.2
  have hblock : L.data + k % 8 < 524288 := by omega
  have hhead : L.SameHead img' img₁ :=
    writeInto_head hof (L.recordAt_ge i) (by rw [hsize]; omega) ⟨_, rfl, hblock⟩ hinto
  refine ⟨img', ?_, hhead.of hof, hhead.tally.trans htally⟩
  rw [hrun, hinto]
  rfl

/-- A gap whose length overflows. -/
theorem write_fault (hroom : nd.extents = [] → ∃ k, LeastClear img L.dataMapAt k)
    (hgap : ¬ GapFits img (L.recordAt i) offset) (buf : List UInt8) :
    ∃ f, a1fsWrite img t.path buf offset = .error f := by
  cases hrun : a1fsWrite img t.path buf offset with
  | error f => exact ⟨f, rfl⟩
  | ok r =>
      refine absurd ?_ hgap
      by_cases hext : nd.extents = []
      · obtain ⟨k, hleast⟩ := hroom hext
        obtain ⟨_, hsize, _⟩ := wf.giveFirstBlock_tally hnd hleast
        have hne : ((k % 8 : Nat) : Int) ≠ -1 := by omega
        rw [wf.write_first hi hnd hext, hleast.findNextBit, if_neg hne] at hrun
        obtain ⟨img', hinto, _⟩ := map_eq_ok.mp hrun
        have hgap := writeInto_gapFits hinto
        unfold GapFits at hgap
        rwa [hsize] at hgap
      · rw [wf.write_more hi hnd hext] at hrun
        obtain ⟨img', hinto, _⟩ := map_eq_ok.mp hrun
        exact writeInto_gapFits hinto

end Writes

/-! ## Truncation -/

theorem notRoom_iff {a : Int} : ¬ RoomInFirstByte img a ↔ ∀ k < 8, bitSet img a k = true := by
  simp only [RoomInFirstByte, not_exists, not_and, Bool.not_eq_false]

/-- The tally after a truncation to another size: the inode bitmap is the one that changes. -/
theorem resized_tally (h : nd.At L img i) (hok : nd.Ok L) (hof : L.Of img) (hi : i < L.inodes)
    (hlast : nd.extents ≠ [] → L.data + (nd.lastBlock + 1) < 524288) (size : Nat) :
    let img' := L.resized i nd.size size (L.reached img i nd)
    (L.tally img').freeBlocks = freeBlocksCount img ∧
      (L.tally img').usedBlocks = (L.tally img).usedBlocks ∧
      (L.tally img').freeInodes = freeInodesCount img ∧
      ((L.tally img').usedInodes = (L.tally img).usedInodes ↔ ¬ RoomInFirstByte img L.inodeMapAt ∨
        (nd.extents ≠ [] ∧ (int32 (size - (nd.size % 4096 : Nat))).tdiv 4096 ≤ 0)) := by
  intro img'
  have hbits := L.bits_ge
  have hdrift : Drift L i img img' := resized_drift h hok hof hi hlast
  simp only [Layout.tally_freeBlocks, Layout.tally_usedBlocks, Layout.tally_freeInodes,
    Layout.tally_usedInodes]
  refine ⟨hdrift.freeBlocks, setBits_congr hdrift.dataBit, hdrift.freeInodes, ?_⟩
  constructor
  · intro heq
    by_contra hnot
    rw [not_or, not_not] at hnot
    obtain ⟨hroom, hneeds⟩ := hnot
    obtain ⟨k, hk, hleast⟩ := exists_leastClear (by omega) hroom
    have hset : bitSet img' L.inodeMapAt k = true := by
      refine resized_sets h hok hof hi hlast hk hleast ?_
      by_cases hext : nd.extents = []
      · exact .inl hext
      · right
        by_contra hle
        exact hneeds ⟨hext, by omega⟩
    have hlt : setBits img L.inodeMapAt _ < setBits img' L.inodeMapAt _ :=
      setBits_lt (by omega) hleast.2.1 hset hdrift.inodeBit
    omega
  · rintro (hfull | ⟨hext, hle⟩)
    · exact setBits_congr (hdrift.full (notRoom_iff.mp hfull))
    · exact setBits_congr fun k hk => resized_inodeBit h hok hof hi hlast hext hle hk

/-- The tally after a truncation to the size that the file has. -/
theorem sameSized_tally (h : nd.At L img i) (hok : nd.Ok L) (hof : L.Of img) (hi : i < L.inodes)
    (hbs : ∀ b ∈ nd.blocks, b < 65536) (size : Nat) :
    let img' := (L.sameSized i size (L.reached img i nd).1).img
    L.Of img' ∧ (L.tally img').freeBlocks = freeBlocksCount img ∧
      (L.tally img').usedBlocks ≤ (L.tally img).usedBlocks ∧
      (L.tally img').freeInodes = freeInodesCount img ∧
      ((L.tally img').usedInodes = (L.tally img).usedInodes ↔ ¬ RoomInFirstByte img L.inodeMapAt ∨
        nd.extents ≠ []) := by
  intro img'
  have hbits := L.bits_ge
  have hshrunk : Shrunk L (L.reached img i nd).1 img' := sameSized_shrunk h hok hof hi hbs
  have hdrift := reached_drift h hok hof hi
  have hused : setBits img' L.inodeMapAt L.inodeBitCount =
      setBits (L.reached img i nd).1 L.inodeMapAt L.inodeBitCount := setBits_congr hshrunk.inodeBit
  simp only [Layout.tally_freeBlocks, Layout.tally_usedBlocks, Layout.tally_freeInodes,
    Layout.tally_usedInodes]
  refine ⟨hshrunk.of, hshrunk.freeBlocks.trans hdrift.freeBlocks, ?_,
    hshrunk.freeInodes.trans hdrift.freeInodes, ?_⟩
  · refine setBits_mono fun b hb hset => ?_
    rw [← hdrift.dataBit b hb]
    exact hshrunk.dataBit b hb hset
  rw [hused]
  constructor
  · intro heq
    by_contra hnot
    rw [not_or, not_not, not_not] at hnot
    obtain ⟨hroom, hext⟩ := hnot
    obtain ⟨k, hk, hleast⟩ := exists_leastClear (by omega) hroom
    have hset : bitSet (L.reached img i nd).1 L.inodeMapAt k = true := reached_sets h hok hof hi hk hleast hext
    have hlt : setBits img L.inodeMapAt _ < setBits (L.reached img i nd).1 L.inodeMapAt _ :=
      setBits_lt (by omega) hleast.2.1 hset hdrift.inodeBit
    omega
  · rintro (hfull | hext)
    · exact setBits_congr (hdrift.full (notRoom_iff.mp hfull))
    · rw [Layout.reached, if_neg hext]

section Truncates

variable (wf : WellFormed L img nodes) (hi : nodes.resolve (t.dirs ++ [t.name]) = (i : Int))
  (hnd : nodes i = some nd) {size : Nat}
include wf hi hnd

omit hi in
/-- The charge changes the counter of blocks only. -/
theorem charged_tally {img₀ : Image} (himg₀ : chargedBlocks img nd.size size = img₀) :
    L.Of img₀ ∧ nd.At L img₀ i ∧
      L.tally img₀ = { L.tally img with
        freeBlocks := uint32 (freeBlocksCount img -
          ((int32 (size - (nd.size % 4096 : Nat))).tdiv 4096 + 1)) } ∧
      (RoomInFirstByte img₀ L.inodeMapAt ↔ RoomInFirstByte img L.inodeMapAt) := by
  rw [chargedBlocks] at himg₀
  rw [← himg₀]
  refine ⟨wf.of.setFreeBlocksCount, ?_, Layout.tally_setFreeBlocksCount, ?_⟩
  · exact (wf.hold.nodeAt i nd hnd).of_sameTail (wf.closed.ok i nd hnd)
      Layout.sameTail_setFreeBlocksCount
  · exact roomInFirstByte_congr fun k _ => bitSet_setFreeBlocksCount L.inodeMapAt_ge

/-- What `a1fs_truncate` leaves when the size changes. -/
theorem truncate_other_tally (hsize : size ≠ nd.size) :
    ∃ img', a1fsTruncate img t.path size = .ok (0, img') ∧ L.Of img' ∧
      (L.tally img').freeBlocks = uint32 (freeBlocksCount img -
        ((int32 (size - (nd.size % 4096 : Nat))).tdiv 4096 + 1)) ∧
      (L.tally img').usedBlocks = (L.tally img).usedBlocks ∧
      (L.tally img').freeInodes = freeInodesCount img ∧
      ((L.tally img').usedInodes = (L.tally img).usedInodes ↔ ¬ RoomInFirstByte img L.inodeMapAt ∨
        (nd.extents ≠ [] ∧ (int32 (size - (nd.size % 4096 : Nat))).tdiv 4096 ≤ 0)) := by
  obtain ⟨img₀, himg₀⟩ : ∃ img₀, chargedBlocks img nd.size size = img₀ := ⟨_, rfl⟩
  obtain ⟨hof, hat, htally, hroom⟩ := wf.charged_tally hnd himg₀
  have hlt := wf.closed.inode_lt i nd hnd
  have hok := wf.closed.ok i nd hnd
  have hlast : nd.extents ≠ [] → L.data + (nd.lastBlock + 1) < 524288 := fun hext =>
    (wf.lastBlock_lt hnd hext).2
  have hrun := wf.truncate_run hi hnd himg₀
  rw [if_pos hsize] at hrun
  have hdrift : Drift L i img₀ (L.resized i nd.size size (L.reached img₀ i nd)) :=
    resized_drift hat hok hof hlt hlast
  obtain ⟨hfree, hused, hinodes, hbits⟩ := resized_tally hat hok hof hlt hlast size
  revert hrun hdrift hfree hused hinodes hbits
  generalize L.resized i nd.size size (L.reached img₀ i nd) = img₁
  intro hrun hdrift hfree hused hinodes hbits
  have hhead : L.SameHead (setSize img₁ (L.recordAt i) size) img₁ :=
    (Layout.SameHead.refl L img₁).setSize (L.recordAt_ge i)
  refine ⟨_, hrun, hhead.of hdrift.of, ?_⟩
  rw [← Layout.tally_freeBlocks, htally] at hfree
  rw [← Layout.tally_freeInodes, htally] at hinodes
  rw [htally] at hused hbits
  rw [hhead.tally, hfree, hused, hinodes, hbits, hroom]
  dsimp only
  exact ⟨rfl, rfl, Layout.tally_freeInodes, Iff.rfl⟩

/-- What `a1fs_truncate` leaves when the size stays. -/
theorem truncate_same_tally (hsize : size = nd.size) :
    ∃ img', a1fsTruncate img t.path size = .ok (0, img') ∧ L.Of img' ∧
      (L.tally img').freeBlocks = uint32 (freeBlocksCount img -
        ((int32 (size - (nd.size % 4096 : Nat))).tdiv 4096 + 1)) ∧
      (L.tally img').usedBlocks ≤ (L.tally img).usedBlocks ∧
      (L.tally img').freeInodes = freeInodesCount img ∧
      ((L.tally img').usedInodes = (L.tally img).usedInodes ↔ ¬ RoomInFirstByte img L.inodeMapAt ∨
        nd.extents ≠ []) := by
  obtain ⟨img₀, himg₀⟩ : ∃ img₀, chargedBlocks img nd.size size = img₀ := ⟨_, rfl⟩
  obtain ⟨hof, hat, htally, hroom⟩ := wf.charged_tally hnd himg₀
  have hlt := wf.closed.inode_lt i nd hnd
  have hok := wf.closed.ok i nd hnd
  have hbs : ∀ b ∈ nd.blocks, b < 65536 := fun b hb => (wf.blockBit hnd hb).1
  have hrun := wf.truncate_run hi hnd himg₀
  rw [if_neg (not_not.mpr hsize)] at hrun
  obtain ⟨hofSame, hfree, hused, hinodes, hbits⟩ :=
    sameSized_tally hat hok hof hlt hbs size
  revert hrun hofSame hfree hused hinodes hbits
  generalize (L.sameSized i size (L.reached img₀ i nd).1).img = img₁
  intro hrun hofSame hfree hused hinodes hbits
  have hhead : L.SameHead (setSize img₁ (L.recordAt i) size) img₁ :=
    (Layout.SameHead.refl L img₁).setSize (L.recordAt_ge i)
  refine ⟨_, hrun, hhead.of hofSame, ?_⟩
  rw [← Layout.tally_freeBlocks, htally] at hfree
  rw [← Layout.tally_freeInodes, htally] at hinodes
  rw [htally] at hused hbits
  rw [hhead.tally, hfree, hinodes, hbits, hroom]
  dsimp only at hused ⊢
  exact ⟨rfl, hused, Layout.tally_freeInodes, Iff.rfl⟩

end Truncates

/-! ## How the calls end -/

section Ends

variable (wf : WellFormed L img nodes)
include wf

/-- `a1fs_mkdir` is refused, overruns its buffer, or takes an inode and a block. -/
theorem mkdir_ends (hc : (Call.mkdir t mode stale).Allowed img)
    (hfinds : (Call.mkdir t mode stale).FindsParent img) :
    ((freeInodesCount img = 0 ∨ freeBlocksCount img = 0) ∧
      (Call.mkdir t mode stale).run img = .ok (-enomem, img)) ∨
    (¬ (freeInodesCount img = 0 ∨ freeBlocksCount img = 0) ∧
      ((¬ t.path.length < 100 ∧ (Call.mkdir t mode stale).run img = .error .overflow) ∨
        (t.path.length < 100 ∧ ∃ i b img', (Call.mkdir t mode stale).run img = .ok (0, img') ∧
          L.Of img' ∧ (i < 8 ↔ RoomInFirstByte img L.inodeMapAt) ∧
          (b < 8 ↔ RoomInFirstByte img L.dataMapAt) ∧
          L.tally img' = ⟨uint32 (freeBlocksCount img - 1),
            (L.tally img).usedBlocks + (if b < 8 then 1 else 0), uint32 (freeInodesCount img - 1),
            (L.tally img).usedInodes + (if i < 8 then 1 else 0)⟩))) := by
  obtain ⟨_, hparent, _, _⟩ := hc
  obtain ⟨p, pn, hp, hpn, hdir⟩ :=
    hparent.node wf.hold wf.closed t.dir_component t.length_parent_lt
  by_cases hfree : freeInodesCount img = 0 ∨ freeBlocksCount img = 0
  · exact .inl ⟨hfree, if_pos hfree⟩
  · refine .inr ⟨hfree, ?_⟩
    have hbuf : BufferReads stale t.dirs := by
      rw [Call.FindsParent, ← or_assoc] at hfinds
      exact hfinds.resolve_left hfree
    by_cases hlen : t.path.length < 100
    · exact .inr ⟨hlen, wf.mkdir_tally hp hpn hdir hlen hbuf hfree mode⟩
    · exact .inl ⟨hlen, mkdir_long hlen hfree⟩

/-- `a1fs_create` is refused, overruns its buffer, or takes an inode. -/
theorem create_ends (hc : (Call.create t mode stale).Allowed img)
    (hfinds : (Call.create t mode stale).FindsParent img) :
    ((uint32 (freeInodesCount img - 1) = 0 ∨ freeBlocksCount img = 0) ∧
      (Call.create t mode stale).run img =
        .ok (-enomem, setFreeInodesCount img (freeInodesCount img - 1))) ∨
    (¬ (uint32 (freeInodesCount img - 1) = 0 ∨ freeBlocksCount img = 0) ∧
      ((¬ t.path.length < 100 ∧ (Call.create t mode stale).run img = .error .overflow) ∨
        (t.path.length < 100 ∧ ∃ i img', (Call.create t mode stale).run img = .ok (0, img') ∧
          L.Of img' ∧ (i < 8 ↔ RoomInFirstByte img L.inodeMapAt) ∧
          L.tally img' = { L.tally img with
            freeInodes := uint32 (freeInodesCount img - 1)
            usedInodes := (L.tally img).usedInodes + (if i < 8 then 1 else 0) }))) := by
  obtain ⟨_, hparent, hreg, _⟩ := hc
  obtain ⟨p, pn, hp, hpn, hdir⟩ :=
    hparent.node wf.hold wf.closed t.dir_component t.length_parent_lt
  by_cases hfree : uint32 (freeInodesCount img - 1) = 0 ∨ freeBlocksCount img = 0
  · exact .inl ⟨hfree, create_refused hreg hfree⟩
  · refine .inr ⟨hfree, ?_⟩
    have hbuf : BufferReads stale t.dirs := by
      rw [Call.FindsParent, ← or_assoc] at hfinds
      exact hfinds.resolve_left hfree
    by_cases hlen : t.path.length < 100
    · exact .inr ⟨hlen, wf.create_tally hp hpn hdir hlen hbuf hreg hfree⟩
    · exact .inl ⟨hlen, create_long hlen hreg hfree⟩

/-- `a1fs_rmdir` is refused, overruns a buffer, or gives back an inode and clears the bits
of some blocks. -/
theorem rmdir_ends (hc : (Call.rmdir t stale).Allowed img)
    (hfinds : (Call.rmdir t stale).FindsParent img) :
    ((Leads img t.path fun i => inodeLinks img (inodeAddr img i) ≠ 2) ∧
      (Call.rmdir t stale).run img = .ok (-enotempty, img)) ∨
    (¬ (Leads img t.path fun i => inodeLinks img (inodeAddr img i) ≠ 2) ∧
      ((¬ (t.path.length < 100 ∧ Leads img t.parent fun p =>
          RemovalReads img (inodeAddr img p) (extentAddr img p) t.name) ∧
        ∃ f, (Call.rmdir t stale).run img = .error f) ∨
      ((t.path.length < 100 ∧ Leads img t.parent fun p =>
          RemovalReads img (inodeAddr img p) (extentAddr img p) t.name) ∧
        ∃ (k : Nat) (img' : Image), 0 < k ∧ (Call.rmdir t stale).run img = .ok (0, img') ∧ L.Of img' ∧
          (L.tally img').freeBlocks = freeBlocksCount img ∧
          (L.tally img').usedBlocks + k = (L.tally img).usedBlocks ∧
          (L.tally img').freeInodes = uint32 (freeInodesCount img + 1) ∧
          (L.tally img').usedInodes + 1 = (L.tally img).usedInodes))) := by
  obtain ⟨i, nd, hi, hnd, hdir⟩ := IsDirectory.node wf.hold wf.closed t.component t.length_lt hc
  obtain ⟨p, pn, hp, hpn, _, _⟩ := wf.parent_of_resolve hi
  have hpath := pathInode_target wf hi
  have hlt := wf.closed.inode_lt i nd hnd
  have hplt := wf.closed.inode_lt p pn hpn
  have hlinks := (wf.hold.nodeAt i nd hnd).links
  rw [Call.FindsParent, leads_iff hpath, wf.of.inodeAddr hlt.le, hlinks] at hfinds
  rw [leads_iff hpath, leads_iff (wf.pathInode_parent hp), wf.of.inodeAddr hlt.le,
    wf.of.inodeAddr hplt.le, wf.of.extentAddr hplt.le, hlinks]
  by_cases htwo : nd.links = 2
  · have hbuf := hfinds.resolve_left (not_not.mpr htwo)
    refine .inr ⟨not_not.mpr htwo, ?_⟩
    by_cases hlen : t.path.length < 100
    · by_cases hreads : RemovalReads img (L.recordAt p) (L.extentAt p) t.name
      · obtain ⟨img', hrun, htally⟩ := wf.rmdir_tally hi hnd hlen hbuf hp hpn htwo hreads
        exact .inr ⟨⟨hlen, hreads⟩, nd.blocks.length, img',
          List.length_pos_iff.mpr (wf.blocks_ne_nil hnd hdir), hrun, htally⟩
      · exact .inl ⟨fun h => hreads h.2, wf.rmdir_fault hi hnd hlen hbuf hp hpn htwo hreads⟩
    · refine .inl ⟨fun h => hlen h.1, .overflow, rmdir_long hlen hpath ?_⟩
      rw [wf.of.inodeAddr hlt.le, hlinks, htwo]
  · exact .inl ⟨htwo, wf.rmdir_refused hi hnd htwo⟩

/-- `a1fs_unlink` overruns a buffer, or gives back an inode and the blocks of the file. -/
theorem unlink_ends (hc : (Call.unlink t stale).Allowed img)
    (hfinds : (Call.unlink t stale).FindsParent img) :
    (¬ (t.path.length < 100 ∧ Leads img t.parent fun p =>
        RemovalReads img (strayAddr img p) (extentAddr img p) t.name) ∧
      ∃ f, (Call.unlink t stale).run img = .error f) ∨
    ((t.path.length < 100 ∧ Leads img t.parent fun p =>
        RemovalReads img (strayAddr img p) (extentAddr img p) t.name) ∧
      ∃ (k : Nat) (img' : Image), (Call.unlink t stale).run img = .ok (0, img') ∧ L.Of img' ∧
        (L.tally img').freeBlocks = uint32 (freeBlocksCount img + k) ∧
        (L.tally img').usedBlocks + k = (L.tally img).usedBlocks ∧
        (L.tally img').freeInodes = uint32 (freeInodesCount img + 1) ∧
        (L.tally img').usedInodes + 1 = (L.tally img).usedInodes) := by
  obtain ⟨i, nd, hi, hnd, _⟩ := IsFile.node wf.hold wf.closed t.component t.length_lt hc
  obtain ⟨p, pn, hp, hpn, _, _⟩ := wf.parent_of_resolve hi
  have hparent := wf.pathInode_parent hp
  have hplt := wf.closed.inode_lt p pn hpn
  obtain ⟨hbuf, hstray⟩ := hfinds
  rw [leads_iff hparent, wf.of.inodeAddr hplt.le, (wf.hold.nodeAt p pn hpn).count,
    wf.of.strayAddr hplt] at hstray
  rw [leads_iff hparent, wf.of.strayAddr hplt, wf.of.extentAddr hplt.le]
  by_cases hlen : t.path.length < 100
  · by_cases hreads : RemovalReads img (L.strayAt p) (L.extentAt p) t.name
    · obtain ⟨img', hrun, htally⟩ := wf.unlink_tally hi hnd hlen hbuf hp hpn hstray hreads
      exact .inr ⟨⟨hlen, hreads⟩, nd.blocks.length, img', hrun, htally⟩
    · exact .inl ⟨fun h => hreads h.2, wf.unlink_fault hi hnd hlen hbuf hp hpn hstray hreads⟩
  · exact .inl ⟨fun h => hlen h.1, .overflow, unlink_long hlen (pathInode_target wf hi)⟩

/-- `a1fs_write` finds no block, has a gap of no length, gives the file its first block, or
takes nothing. -/
theorem write_ends {buf : List UInt8} {offset : Nat} (hc : (Call.write t buf offset).Allowed img) :
    ∃ i : Nat, pathInode img t.path = .ok (i : Int) ∧ i < L.inodes ∧
      ((extentCount img (L.recordAt i) = 0 ∧ Full img L.dataMapAt ∧
          (Call.write t buf offset).run img = .ok (-enospc, img)) ∨
        (¬ (extentCount img (L.recordAt i) = 0 ∧ Full img L.dataMapAt) ∧
          ¬ GapFits img (L.recordAt i) offset ∧ ∃ f, (Call.write t buf offset).run img = .error f) ∨
        (GapFits img (L.recordAt i) offset ∧ ∃ img',
          (Call.write t buf offset).run img = .ok (int32 buf.length, img') ∧ L.Of img' ∧
          ((extentCount img (L.recordAt i) ≠ 0 ∧ L.tally img' = L.tally img) ∨
            (extentCount img (L.recordAt i) = 0 ∧ ∃ k, LeastClear img L.dataMapAt k ∧
              L.tally img' = { L.tally img with
                freeBlocks := uint32 (freeBlocksCount img - 1)
                usedBlocks := (L.tally img).usedBlocks + (if k < 8 then 1 else 0) })))) := by
  obtain ⟨i, nd, hi, hnd, _⟩ := IsFile.node wf.hold wf.closed t.component t.length_lt hc.1
  have hcount := (wf.hold.nodeAt i nd hnd).count
  refine ⟨i, pathInode_target wf hi, wf.closed.inode_lt i nd hnd, ?_⟩
  by_cases hext : nd.extents = []
  · have hzero : extentCount img (L.recordAt i) = 0 := by
      rw [hcount, hext]
      rfl
    rcases leastClear_or_full img L.dataMapAt with ⟨k, hleast⟩ | hfull
    · have hnot : ¬ Full img L.dataMapAt := fun hfull => by
        simpa [hleast.2.1] using hfull k hleast.1
      right
      by_cases hgap : GapFits img (L.recordAt i) offset
      · obtain ⟨img', hrun, hof, htally⟩ := wf.write_first_tally hi hnd hext hleast hgap buf
        exact .inr ⟨hgap, img', hrun, hof, .inr ⟨hzero, k, hleast, htally⟩⟩
      · exact .inl ⟨fun h => hnot h.2, hgap, wf.write_fault hi hnd (fun _ => ⟨k, hleast⟩) hgap buf⟩
    · have hrun : a1fsWrite img t.path buf offset = _ := wf.write_first hi hnd hext
      rw [hfull.findNextBit, if_pos rfl] at hrun
      exact .inl ⟨hzero, hfull, hrun⟩
  · have hpos := List.length_pos_iff.mpr hext
    have hne : extentCount img (L.recordAt i) ≠ 0 := by omega
    right
    by_cases hgap : GapFits img (L.recordAt i) offset
    · obtain ⟨img', hrun, hof, htally⟩ := wf.write_more_tally hi hnd hext hgap buf
      exact .inr ⟨hgap, img', hrun, hof, .inl ⟨hne, htally⟩⟩
    · exact .inl ⟨fun h => hne h.1, hgap, wf.write_fault hi hnd (fun h => absurd h hext) hgap buf⟩

end Ends

end WellFormed

end UoftOs.FileSystem
