import UoftOs.FileSystem.Listing
import UoftOs.FileSystem.Runs

/-!
# Empty directories

`a1fs_rmdir` tells an empty directory by its link count. Safe calls keep the link count
of every directory at the number of its entries, so it refuses those that list more than
`"."` and `".."`. In a nested directory `a1fs_unlink` takes the extent of another
directory for the parent's record, and that directory then lists nothing.
-/

namespace UoftOs.FileSystem

open Lib.ByteMemory Lib.NamedTree Lib.Transition

variable {L : Layout} {img img' img₁ : Image} {nodes : Nodes} {nd pn : Node} {i j p size n : Nat}
  {t : Target} {stale : Nat → UInt8} {cs : List Name} {calls : List Call}

/-! ## What a directory lists -/

/-- `a1fs_readdir` reads the names of the entries. -/
theorem Node.At.readdirNames (h : nd.At L img i) (hok : nd.Ok L) (hof : L.Of img)
    (hi : i < L.inodes) (hdir : sIsDir nd.mode) :
    readdirNames img i = .ok (nd.entries.map Prod.fst) := by
  have hlen := hok.entries_le
  rw [readdirNames_eq_ok (by rw [hof.inodeAddr hi.le, h.number]), hof.inodeAddr hi.le,
    h.directorySlots hok hof hi hdir]
  refine ⟨mapM_range_of_getElem fun k hk => ?_, by rwa [List.length_map]⟩
  obtain ⟨hname, _⟩ := h.slots k hk
  obtain ⟨hfree, hshort⟩ := hok.names _ (List.getElem_mem hk)
  rw [readName, readDentry, hname.cstr_bytesAt hfree hshort]
  rfl

/-- `a1fs_readdir` lists the entries of a directory. -/
theorem Consistent.readdir (h : Consistent L img nodes) (hcs : ∀ c ∈ cs, c ≠ [] ∧ slash ∉ c)
    (hlen : (render cs).length < 4096) (hi : nodes.resolve cs = (i : Int)) (hnd : nodes i = some nd)
    (hdir : sIsDir nd.mode) :
    a1fsReaddir img (render cs) = .ok (0, nd.entries.map Prod.fst) := by
  have hclosed := h.tree.closed
  have hnames := (h.hold.nodeAt i nd hnd).readdirNames (h.tree.ok hnd) h.of
    (hclosed.inode_lt i nd hnd) hdir
  have habsolute : (render cs).head? = some slash := by
    cases cs <;> rfl
  rw [a1fsReaddir, h.hold.pathInode hclosed hcs hlen, ok_bind, if_neg (not_not.mpr habsolute), hi,
    hnames]
  rfl

/-- The names of a directory are those of its children behind `"."` and `".."`. -/
theorem Node.IsDirAt.map_fst (h : nd.IsDirAt i p) :
    nd.entries.map Prod.fst = dot :: dotDot :: nd.children.map Prod.fst := by
  rw [h.entries]
  rfl

/-- A directory has two links exactly if it lists nothing but `"."` and `".."`. -/
theorem Node.IsDirAt.links_ne_two_iff (h : nd.IsDirAt i p) :
    nd.links ≠ 2 ↔ ∃ name ∈ nd.entries.map Prod.fst, name ≠ dot ∧ name ≠ dotDot := by
  have hlinks : nd.links = nd.children.length + 2 := h.links.trans h.length_entries
  rw [h.map_fst]
  constructor
  · intro hne
    obtain ⟨e, he⟩ := List.exists_mem_of_length_pos (l := nd.children) (by omega)
    have hname := (h.names e he).1
    refine ⟨e.1, ?_, hname.ne_dot, hname.ne_dotDot⟩
    exact List.mem_cons_of_mem _ (List.mem_cons_of_mem _ (List.mem_map_of_mem he))
  · rintro ⟨name, hmem, hdot, hdotDot⟩
    have hchild := ((List.mem_cons.mp hmem).resolve_left hdot)
    obtain ⟨e, he, _⟩ := List.mem_map.mp ((List.mem_cons.mp hchild).resolve_left hdotDot)
    have hpos := List.length_pos_of_mem he
    omega

/-- A directory with two links is not refused. -/
theorem rmdir_accepts {path : Path} {ino r : Int} (hpath : pathInode img path = .ok ino)
    (hlinks : inodeLinks img (inodeAddr img ino) = 2) (h : a1fsRmdir img path stale = .ok (r, img')) :
    r = 0 := by
  unfold a1fsRmdir at h
  split at h
  · cases h
  · rw [hpath, ok_bind] at h
    simp only [hlinks, ne_eq, not_true_eq_false, if_false] at h
    obtain ⟨parent, _, hparent⟩ := bind_eq_ok.mp h
    obtain ⟨removed, _, hremoved⟩ := bind_eq_ok.mp hparent
    cases hremoved
    rfl

/-- Over runs of safe calls `a1fs_rmdir` refuses exactly the directories that list another
entry than `"."` and `".."`. -/
theorem rmdir_refuses_nonempty (hfresh : FreshImage img size n) (run : SafeRun img calls img₁)
    (hdir : IsDirectory img₁ t.path) :
    ∃ names, a1fsReaddir img₁ t.path = .ok (0, names) ∧
      ((∃ img₂, a1fsRmdir img₁ t.path stale = .ok (-enotempty, img₂)) ↔
        ∃ name ∈ names, name ≠ dot ∧ name ≠ dotDot) := by
  obtain ⟨nodes, h⟩ := run.consistent hfresh
  obtain ⟨i, nd, hi, hnd, hmode⟩ :=
    hdir.node h.hold h.tree.closed t.component t.length_lt
  obtain ⟨p, hat, _⟩ := h.tree.directory i nd hnd hmode
  refine ⟨_, h.readdir t.component t.length_lt hi hnd hmode, ?_⟩
  rw [← hat.links_ne_two_iff]
  constructor
  · rintro ⟨img₂, hrun⟩ htwo
    have hlt := h.tree.closed.inode_lt i nd hnd
    have hzero := rmdir_accepts (h.wellFormed.pathInode_target hi)
      (by rw [h.of.inodeAddr hlt.le, (h.hold.nodeAt i nd hnd).links, htwo]) hrun
    exact absurd hzero (by decide)
  · intro hne
    exact ⟨img₁, h.wellFormed.rmdir_refused hi hnd hne⟩

/-! ## Entries one after the other -/

/-- The bytes of the extent blocks behind the first extent. -/
def Layout.Spare (L : Layout) (x : Int) : Prop :=
  4096 * L.extents ≤ x ∧ x < 4096 * L.data ∧
    ∀ j : Nat, x < L.extentAt j ∨ L.extentAt j + 8 ≤ x

namespace Layout

variable {x slot : Int} {name : Name} {mode b : Nat}

/-- The bytes stand behind the bitmaps and the inode table. -/
theorem Spare.behind_bitmaps (hx : L.Spare x) (hi : i < 8) :
    x ≠ L.inodeMapAt + (i / 8 : Nat) ∧ x ≠ L.dataMapAt ∧ 52 ≤ x := by
  have hlo := hx.1
  have hinodeMap := L.inodeMapAt_lt
  have hdataMap := L.dataMap_lt
  have hdata : L.dataMapAt = 4096 * (L.dataMap : Int) := rfl
  have hpos := L.head_pos
  have hext := L.extents_lt
  omega

theorem linkedDirectory_spare (hx : L.Spare x) (hp : p < L.inodes) (hi : i < L.inodes)
    (hslot : 4096 * (L.data : Int) ≤ L.newSlot img p) (hname : name.length < 252) :
    L.linkedDirectory img p name mode i b x = img x := by
  obtain ⟨hlo, hhi, hextents⟩ := hx
  have hrecord := L.recordAt_lt hp
  have hrecord' := L.recordAt_lt hi
  have hblock := L.blockAt_ge_data b
  exact linkedDirectory_apply rfl hname (by omega) (by omega) (hextents i) (by omega) (by omega)

theorem linkedFile_spare (hx : L.Spare x) (hp : p < L.inodes) (hi : i < L.inodes)
    (hslot : 4096 * (L.data : Int) ≤ L.newSlot img p) (hname : name.length < 252) :
    L.linkedFile img p name mode i x = img x := by
  obtain ⟨hlo, hhi, _⟩ := hx
  have hrecord := L.recordAt_lt hp
  have hrecord' := L.recordAt_lt hi
  exact linkedFile_apply rfl hname (by omega) (by omega) (by omega)

end Layout

/-- An allowed call that returns 0. -/
structure Succeeds (img : Image) (c : Call) (img' : Image) : Prop where
  allowed : c.Allowed img
  run : c.run img = .ok (0, img')

theorem Succeeds.performs {c : Call} (h : Succeeds img c img') : Performs img c img' :=
  ⟨h.allowed, 0, h.run⟩

/-- A consistent image with its counters, and nothing behind the first extents. -/
structure Built (L : Layout) (img : Image) (nodes : Nodes) (inodes blocks : Nat) : Prop where
  consistent : Consistent L img nodes
  freeInodes : freeInodesCount img = inodes
  freeBlocks : freeBlocksCount img = blocks
  spare : ∀ x, L.Spare x → img x = 0

/-- The least inode that is free. -/
structure NextInode (L : Layout) (nodes : Nodes) (i : Nat) : Prop where
  small : i < 8 ∧ i < L.inodes
  free : nodes i = none
  used : ∀ k < i, (nodes k).isSome

/-- The least block that is free. -/
structure NextBlock (L : Layout) (nodes : Nodes) (b : Nat) : Prop where
  small : b < 8 ∧ b < L.blocks
  free : ∀ i nd, nodes i = some nd → (b, 1) ∉ nd.extents
  used : ∀ c < b, ∃ i nd, nodes i = some nd ∧ (c, 1) ∈ nd.extents

/-- The buffer `parent_path` of zeros reads as the copied prefix. -/
theorem parentPath_zero {pre : Path} (hpre : ZeroFree pre) (hlen : pre.length < 4096) :
    parentPath (fun _ => 0) pre = some pre := by
  obtain ⟨k, hk⟩ : ∃ k, 4096 - pre.length = k + 1 := ⟨4095 - pre.length, by omega⟩
  have hbuf : pre ++ (terminated [] ++ (List.range k).map fun _ => (0 : UInt8)) =
      terminated pre ++ (List.range k).map fun _ => 0 := by
    rw [← List.append_assoc]
    rfl
  rw [parentPath, hk, map_range_zero k, hbuf]
  exact cstr_append hpre _

theorem Target.bufferReads_zero (t : Target) : BufferReads (fun _ => 0) t.dirs := by
  have hlt := t.length_prefix_lt
  have hpath : t.path.length < 4096 := t.length_lt
  by_cases hdirs : t.dirs = []
  · rw [hdirs]
    exact FileSystem.bufferReads_zero
  · rw [BufferReads, if_neg hdirs]
    refine parentPath_zero (zeroFree_renderPrefix fun c hc => ?_) (by omega)
    exact (t.valid c (List.mem_append_left _ hc)).zeroFree

namespace NewEntry

variable (hnew : NewEntry nodes t p pn) (h : Consistent L img nodes)
include hnew h

/-- FUSE lets a new entry be made. -/
theorem allowed : Absent img t.path ∧ IsDirectory img t.parent := by
  have hclosed := h.tree.closed
  constructor
  · refine absent_of_resolve h.hold hclosed t.component t.length_lt ?_
    exact (h.tree.absent_iff hnew.parent ⟨t.name_valid.ne_dot, t.name_valid.ne_dotDot⟩).mpr
      ⟨hnew.passed, hnew.absent⟩
  · exact isDirectory_of_resolve h.hold hclosed t.dir_component t.length_parent_lt hnew.parent
      hnew.node hnew.directory

/-- The slot of the new entry is in the data. -/
theorem newSlot_ge (hold : Holds L img' nodes) :
    4096 * (L.data : Int) ≤ L.newSlot img' p := by
  have hok := h.tree.ok hnew.node
  have hslot := Layout.newSlot_eq (hold.nodeAt p pn hnew.node) hok hold.of
    (Node.extents_ne_nil (h.wellFormed.blocks_ne_nil hnew.node hnew.directory))
  have hge := L.blockAt_ge_data pn.lastBlock
  omega

end NewEntry

namespace Built

variable {a c b mode : Nat}

/-- `a1fs_mkdir` of the next directory. -/
theorem mkdir (h : Built L img nodes (a + 1) (c + 1)) (hnew : NewEntry nodes t p pn)
    (hlen : t.path.length < 100) (hi : NextInode L nodes i) (hb : NextBlock L nodes b)
    (hdir : sIsDir (mode ||| sIfDir)) (hmode : mode < 4294967296)
    (ha : a + 1 < 4294967296 ∧ c + 1 < 4294967296) :
    ∃ img', Succeeds img (.mkdir t mode fun _ => 0) img' ∧ (Call.mkdir t mode fun _ => 0).Safe img ∧
      Built L img'
        (nodes.linked p pn t.name i (Node.emptyDirectory (mode ||| sIfDir) i p b)) a c := by
  have hcons := h.consistent
  have hleast : LeastClear img L.inodeMapAt i := hcons.leastClear_inode hi.small.1 hi.free hi.used
  have hbleast : LeastClear img L.dataMapAt b := hcons.leastClear_block hb.small.1 hb.free hb.used
  have hcounters : ¬ (freeInodesCount img = 0 ∨ freeBlocksCount img = 0) := by
    rw [h.freeInodes, h.freeBlocks]
    omega
  obtain ⟨img', hrun, hcons'⟩ := hcons.mkdir hnew.parent hnew.node hnew.directory hnew.absent hlen
    t.bufferReads_zero hleast hi.small ⟨hdir, uint32_natCast (or_sIfDir_lt hmode)⟩ hcounters hbleast
    hb.small
  obtain ⟨_, _, img₁, hrun₁, _, _, _, htally⟩ := hcons.wellFormed.mkdir_tally hnew.parent hnew.node
    hnew.directory hlen t.bufferReads_zero hcounters mode
  obtain ⟨i', b', img₁', img₂, htake₁, htake₂, _, _, hold₂, _, hrun₂⟩ :=
    hcons.wellFormed.mkdir_run hnew.parent hnew.node hnew.directory hlen t.bufferReads_zero
      hcounters mode
  cases hrun.symm.trans hrun₁
  obtain ⟨_, himage⟩ := Prod.mk.inj (Except.ok.inj (hrun.symm.trans hrun₂))
  refine ⟨img', ⟨⟨(hnew.allowed hcons).1, (hnew.allowed hcons).2, hdir, hmode⟩, hrun⟩,
    .inr ⟨hlen, t.bufferReads_zero, hcons.firstByte_inode.mpr ⟨i, hleast, hi.small⟩,
      hcons.firstByte_block.mpr ⟨b, hbleast, hb.small⟩⟩, hcons', ?_, ?_, ?_⟩
  · have hfree : freeInodesCount img' = uint32 (freeInodesCount img - 1) :=
      congrArg Tally.freeInodes htally
    rw [hfree, h.freeInodes]
    unfold uint32
    omega
  · have hfree : freeBlocksCount img' = uint32 (freeBlocksCount img - 1) :=
      congrArg Tally.freeBlocks htally
    rw [hfree, h.freeBlocks]
    unfold uint32
    omega
  · intro x hx
    obtain ⟨hinodeMap, hdataMap, hhead⟩ := hx.behind_bitmaps hi.small.1
    have hplt := (hcons.tree.small p pn hnew.node).inode_lt
    have hname := t.name_length hlen
    rw [hleast.takeFreeBit, Nat.mod_eq_of_lt hi.small.1] at htake₁
    obtain ⟨rfl, rfl⟩ := Prod.mk.inj htake₁
    rw [himage, setFreeInodesCount_apply (.inr hhead),
      setFreeBlocksCount_apply (.inr (le_trans (by decide) hhead)),
      Layout.linkedDirectory_spare hx hplt hi.small.2 (hnew.newSlot_ge hcons hold₂)
        (hname.trans (by decide)),
      takeFreeBit_apply htake₂ hdataMap, modify_apply_of_ne true hinodeMap]
    exact h.spare x hx

/-- `a1fs_create` of the next file. -/
theorem create (h : Built L img nodes (a + 2) (c + 1)) (hnew : NewEntry nodes t p pn)
    (hlen : t.path.length < 100) (hi : NextInode L nodes i) (hreg : sIsReg mode)
    (hmode : mode < 4294967296) (ha : a + 2 < 4294967296) :
    ∃ img', Succeeds img (.create t mode fun _ => 0) img' ∧ (Call.create t mode fun _ => 0).Safe img ∧
      Built L img' (nodes.linked p pn t.name i (Node.emptyFile mode)) (a + 1) (c + 1) := by
  have hcons := h.consistent
  have hleast : LeastClear img L.inodeMapAt i := hcons.leastClear_inode hi.small.1 hi.free hi.used
  have hcounters : ¬ (uint32 (freeInodesCount img - 1) = 0 ∨ freeBlocksCount img = 0) := by
    rw [h.freeInodes, h.freeBlocks]
    unfold uint32
    omega
  obtain ⟨img', hrun, hcons'⟩ := hcons.create hnew.parent hnew.node hnew.directory hnew.absent hlen
    t.bufferReads_zero hleast hi.small hreg (uint32_natCast hmode) hcounters
  obtain ⟨_, img₁, hrun₁, _, _, htally⟩ := hcons.wellFormed.create_tally hnew.parent hnew.node
    hnew.directory hlen t.bufferReads_zero hreg hcounters
  obtain ⟨i', img₂, htake, _, hold₂, _, hrun₂⟩ := hcons.wellFormed.create_run hnew.parent hnew.node
    hnew.directory hlen t.bufferReads_zero hreg hcounters
  cases hrun.symm.trans hrun₁
  obtain ⟨_, himage⟩ := Prod.mk.inj (Except.ok.inj (hrun.symm.trans hrun₂))
  refine ⟨img', ⟨⟨(hnew.allowed hcons).1, (hnew.allowed hcons).2, hreg, hmode⟩, hrun⟩,
    .inr ⟨hlen, t.bufferReads_zero, hcons.firstByte_inode.mpr ⟨i, hleast, hi.small⟩⟩, hcons',
      ?_, ?_, ?_⟩
  · have hfree : freeInodesCount img' = uint32 (freeInodesCount img - 1) :=
      congrArg Tally.freeInodes htally
    rw [hfree, h.freeInodes]
    unfold uint32
    omega
  · have hfree : freeBlocksCount img' = freeBlocksCount img := congrArg Tally.freeBlocks htally
    rw [hfree, h.freeBlocks]
  · intro x hx
    obtain ⟨hinodeMap, _, hhead⟩ := hx.behind_bitmaps hi.small.1
    have hplt := (hcons.tree.small p pn hnew.node).inode_lt
    have hname := t.name_length hlen
    have hinodes : LeastClear (setFreeInodesCount img (freeInodesCount img - 1)) L.inodeMapAt i :=
      hleast.congr fun _ _ => bitSet_setFreeInodesCount L.inodeMapAt_ge
    rw [hinodes.takeFreeBit, Nat.mod_eq_of_lt hi.small.1] at htake
    obtain ⟨rfl, rfl⟩ := Prod.mk.inj htake
    rw [himage, Layout.linkedFile_spare hx hplt hi.small.2 (hnew.newSlot_ge hcons hold₂)
        (hname.trans (by decide)), modify_apply_of_ne true hinodeMap,
      setFreeInodesCount_apply (.inr hhead)]
    exact h.spare x hx

end Built

/-! ## An entry of a nested directory -/

/-- `mkfs` stores nothing behind the extent of the root. -/
theorem formatImage_spare {sb : Superblock} {x : Int} (hx : L.Spare x) :
    formatImage L sb img x = img x := by
  obtain ⟨hlo, hhi, hextents⟩ := hx
  have hfirst := hextents 0
  have hpos := L.head_pos
  have hinodeMap := L.inodeMapAt_lt
  have hdataMap := L.dataMap_lt
  have hdata : L.dataMapAt = 4096 * (L.dataMap : Int) := rfl
  have hext := L.extents_lt
  have hrecord := L.recordAt_lt L.inodes_pos
  have hblock := L.blockAt_ge_data 0
  have hinodes := L.data_lt
  have hle := L.extentBlocks
  unfold formatImage clearedImage setExtentStart setExtentLength set32
  rw [storeNat_apply_of_outside (by omega), storeNat_apply_of_outside (by omega),
    storeRootEntry_apply (by decide) (by omega), storeRootEntry_apply (by decide) (by omega),
    storeNat_apply_of_outside (by omega), storeNat_apply_of_outside (by omega),
    storeSuperblock_apply (by omega), fill_apply_of_outside (by omega),
    fill_apply_of_outside (by omega), clearInodeMap_apply (by omega), if_neg (by omega),
    storeRootInode_apply (by omega), storeSuperblock_apply (by omega)]

theorem smallImage_spare {x : Int} (hx : smallLayout.Spare x) : smallImage x = 0 := by
  have himage : smallImage = formatImage smallLayout (formatSuperblock 1048576 32) fun _ => 0 :=
    mkfs_eq_formatImage (by decide) (by decide)
  rw [himage, formatImage_spare hx]

/-- The fresh file system with 32 inodes and 216 blocks. -/
theorem smallImage_built : Built smallLayout smallImage freshNodes 32 216 where
  consistent := smallImage_fresh.consistent
  freeInodes := (mkfs_superblock (by decide) (by decide)).2.2
  freeBlocks := (mkfs_superblock (by decide) (by decide)).2.1.trans (by decide)
  spare := fun _ => smallImage_spare

/-- The directory `"/a"`, the directory `"/a/b"` and the file `"/a/b/y"`. -/
def outerTarget : Target where
  dirs := []
  name := [97]
  valid := by
    intro c hc
    obtain rfl : c = [97] := by simpa using hc
    constructor <;> decide
  length_lt := by decide

@[inherit_doc outerTarget]
def innerTarget : Target where
  dirs := [[97]]
  name := [98]
  valid := by
    intro c hc
    obtain rfl | rfl : c = [97] ∨ c = [98] := by simpa using hc
    · constructor <;> decide
    · constructor <;> decide
  length_lt := by decide

@[inherit_doc outerTarget]
def nestedTarget : Target where
  dirs := [[97], [98]]
  name := [121]
  valid := by
    intro c hc
    obtain rfl | rfl | rfl : c = [97] ∨ c = [98] ∨ c = [121] := by simpa using hc
    · constructor <;> decide
    · constructor <;> decide
    · constructor <;> decide
  length_lt := by decide

def outerNode : Node := Node.emptyDirectory (0o755 ||| sIfDir) 1 0 1

def innerNode : Node := Node.emptyDirectory (0o755 ||| sIfDir) 2 1 2

def outerNodes : Nodes := freshNodes.linked 0 rootNode outerTarget.name 1 outerNode

def innerNodes : Nodes := outerNodes.linked 1 outerNode innerTarget.name 2 innerNode

def nestedNodes : Nodes :=
  innerNodes.linked 2 innerNode nestedTarget.name 3 (Node.emptyFile 0o100644)

/-- `"/a"` is made in inode 1. -/
theorem makeOuter : ∃ img, Succeeds smallImage (.mkdir outerTarget 0o755 fun _ => 0) img ∧
    (Call.mkdir outerTarget 0o755 fun _ => 0).Safe smallImage ∧
    Built smallLayout img outerNodes 31 215 := by
  refine smallImage_built.mkdir (p := 0) (i := 1) (b := 1) ⟨rfl, rfl, by decide, .inl rfl, ?_⟩
    (by decide) ⟨by decide, rfl, ?_⟩ ⟨by decide, ?_, ?_⟩ (by decide) (by decide) (by decide)
  · exact fun k => edge_fresh
  · intro k hk
    obtain rfl : k = 0 := by omega
    rfl
  · intro i nd hnd he
    obtain ⟨_, rfl⟩ := freshNodes_eq hnd
    exact absurd he (by decide)
  · intro c hc
    obtain rfl : c = 0 := by omega
    exact ⟨0, rootNode, rfl, by decide⟩

theorem rmdir_refuses_nonempty_outer :
    ∃ img₁, SafeRun smallImage [.mkdir outerTarget 0o755 fun _ => 0] img₁ ∧
      IsDirectory img₁ outerTarget.path ∧
      ∃ names, a1fsReaddir img₁ outerTarget.path = .ok (0, names) ∧
        ((∃ img₂, a1fsRmdir img₁ outerTarget.path (fun _ => 0) = .ok (-enotempty, img₂)) ↔
          ∃ name ∈ names, name ≠ dot ∧ name ≠ dotDot) := by
  obtain ⟨img₁, houter, hsafe, hbuilt⟩ := makeOuter
  have run : SafeRun smallImage [.mkdir outerTarget 0o755 fun _ => 0] img₁ :=
    Run.nil.snoc ⟨houter.performs, hsafe⟩
  have hdir : IsDirectory img₁ outerTarget.path :=
    isDirectory_of_resolve hbuilt.consistent.hold hbuilt.consistent.tree.closed
      outerTarget.component outerTarget.length_lt (i := 1) (by decide)
      (show outerNodes 1 = some outerNode from rfl) (by decide)
  exact ⟨img₁, run, hdir, rmdir_refuses_nonempty smallImage_fresh run hdir⟩

/-- `"/a/b"` is made in inode 2. -/
theorem makeInner (h : Built smallLayout img outerNodes 31 215) :
    ∃ img', Succeeds img (.mkdir innerTarget 0o755 fun _ => 0) img' ∧
      Built smallLayout img' innerNodes 30 214 := by
  have hfree : NextInode smallLayout outerNodes 2 := by
    refine ⟨by decide, rfl, fun k hk => ?_⟩
    obtain rfl | rfl : k = 0 ∨ k = 1 := by omega
    · rfl
    · rfl
  have hblock : NextBlock smallLayout outerNodes 2 := by
    refine ⟨by decide, fun i nd hnd he => ?_, fun c hc => ?_⟩
    · rcases Nodes.linked_cases hnd with ⟨_, rfl⟩ | ⟨_, _, rfl⟩ | ⟨_, _, hold⟩
      · exact absurd he (by decide)
      · exact absurd he (by decide)
      · obtain ⟨_, rfl⟩ := freshNodes_eq hold
        exact absurd he (by decide)
    · obtain rfl | rfl : c = 0 ∨ c = 1 := by omega
      · exact ⟨0, rootNode.grown outerTarget.name 1, rfl, by decide⟩
      · exact ⟨1, outerNode, rfl, by decide⟩
  have hnew : NewEntry outerNodes innerTarget 1 outerNode := by
    refine ⟨by decide, rfl, by decide, .inr (by decide), ?_⟩
    rintro k ⟨nd, hnd, he⟩
    obtain rfl := Option.some.inj hnd
    cases he
  obtain ⟨img', hsucceeds, _, hbuilt⟩ := h.mkdir hnew (by decide) hfree hblock (by decide)
    (show 0o755 < 4294967296 by decide) (by decide)
  exact ⟨img', hsucceeds, hbuilt⟩

/-- `"/a/b/y"` is made in inode 3. -/
theorem makeNested (h : Built smallLayout img innerNodes 30 214) :
    ∃ img', Succeeds img (.create nestedTarget 0o100644 fun _ => 0) img' ∧
      Built smallLayout img' nestedNodes 29 214 := by
  have hfree : NextInode smallLayout innerNodes 3 := by
    refine ⟨by decide, rfl, fun k hk => ?_⟩
    obtain rfl | rfl | rfl : k = 0 ∨ k = 1 ∨ k = 2 := by omega
    · rfl
    · rfl
    · rfl
  have hnew : NewEntry innerNodes nestedTarget 2 innerNode := by
    refine ⟨by decide, rfl, by decide, .inr (by decide), ?_⟩
    rintro k ⟨nd, hnd, he⟩
    obtain rfl := Option.some.inj hnd
    cases he
  obtain ⟨img', hsucceeds, _, hbuilt⟩ := h.create hnew (by decide) hfree (by decide)
    (show 0o100644 < 4294967296 by decide) (by decide)
  exact ⟨img', hsucceeds, hbuilt⟩

/-- The length of the first extent stands where a record has its link count. -/
theorem extentLength_first {e : Int} : extentLength img e (0 : Nat) = inodeLinks img e := by
  have haddr : e + 8 * ((0 : Nat) : Int) + 4 = e + 4 := by omega
  rw [extentLength, inodeLinks, haddr]

theorem extentStart_first {e : Int} (h : AgreeOn img' img e (e + 4)) :
    extentStart img' e (0 : Nat) = extentStart img e (0 : Nat) := by
  have haddr : e + 8 * ((0 : Nat) : Int) = e := by omega
  rw [extentStart, extentStart, haddr]
  exact u32_congr h

/-- Without extents no slot is looked at. -/
theorem removeDentry_nothing {parent e : Int} {name : Name} (h : extentCount img parent = 0) :
    removeDentry img parent e name = .ok (img, false) := by
  have hslots : numberedSlots img parent e = [] := by
    rw [numberedSlots, h]
    rfl
  rw [removeDentry, findSlot, hslots]
  rfl

theorem nestedNodes_outer : nestedNodes 1 = some (outerNode.grown innerTarget.name 2) := rfl

theorem nestedNodes_spare {x : Int} (hlo : smallLayout.extentAt 1 + 36 ≤ x)
    (hhi : x < smallLayout.extentAt 1 + 36 + 4) : smallLayout.Spare x := by
  have hstart : smallLayout.extentAt 1 = 4096 * (smallLayout.extents + 1 : Nat) := rfl
  have hdata := smallLayout.extentBlocks
  have hinodes : smallLayout.inodes = 32 := rfl
  refine ⟨by omega, by omega, fun j => ?_⟩
  unfold Layout.extentAt at *
  omega

/-- `"/a/b/y"` is removed: the parent's record is looked for in the extent block of `"/a"`,
and the decremented link count is the length of its extent. -/
theorem unlinkNested (h : Built smallLayout img nestedNodes 29 214) :
    ∃ img', Succeeds img (.unlink nestedTarget fun _ => 0) img' ∧ smallLayout.Of img' ∧
      extentLength img' (smallLayout.extentAt 1) (0 : Nat) = 0 ∧
      ∀ x, 4096 * (smallLayout.inodeTable : Int) ≤ x →
        (x < smallLayout.extentAt 1 + 4 ∨ smallLayout.extentAt 1 + 8 ≤ x) → img' x = img x := by
  have hcons := h.consistent
  have hwf := hcons.wellFormed
  have hi : nestedNodes.resolve (nestedTarget.dirs ++ [nestedTarget.name]) = ((3 : Nat) : Int) := by
    decide
  have hnd : nestedNodes 3 = some (Node.emptyFile 0o100644) := rfl
  have hstray : smallLayout.strayAt 2 = smallLayout.extentAt 1 := by decide
  obtain ⟨R, hR⟩ : ∃ R, smallLayout.freedInode img 3 = R := ⟨_, rfl⟩
  have hsame : smallLayout.SameTail R img := hR ▸ Layout.freedInode_sameTail (hwf.inodeBit hnd).1
  have hof : smallLayout.Of R := hR ▸ hwf.of.freedInode
  obtain ⟨U, hU⟩ : ∃ U, setLinks R (smallLayout.extentAt 1)
      (inodeLinks R (smallLayout.extentAt 1) - 1) = U := ⟨_, rfl⟩
  have hunlinked : smallLayout.unlinked img (Node.emptyFile 0o100644) 3 2 = U := by
    rw [← hU, ← hR, ← hstray]
    rfl
  have hkeeps : ∀ x, 4096 * (smallLayout.inodeTable : Int) ≤ x →
      (x < smallLayout.extentAt 1 + 4 ∨ smallLayout.extentAt 1 + 8 ≤ x) → U x = img x := by
    intro x hx hout
    rw [← hU, GapClosed.setLinks_apply hout, hsame x hx]
  have hlength : extentLength img (smallLayout.extentAt 1) (0 : Nat) = 1 :=
    ((hcons.hold.nodeAt 1 _ nestedNodes_outer).extents 0 (by decide)).2
  have hge := smallLayout.extentAt_ge 1
  have hlinks : inodeLinks R (smallLayout.extentAt 1) = 1 := by
    have hsameLinks : inodeLinks R (smallLayout.extentAt 1) =
        inodeLinks img (smallLayout.extentAt 1) := u32_congr fun x hlo _ => hsame x (by omega)
    rw [hsameLinks, ← extentLength_first, hlength]
  have hcount : extentCount U (smallLayout.extentAt 1) = 0 := by
    have hzero : extentCount U (smallLayout.extentAt 1) =
        extentCount (fun _ => 0) (smallLayout.extentAt 1) := by
      refine i32_congr fun x hlo hhi => ?_
      have hx : smallLayout.Spare x := nestedNodes_spare hlo hhi
      rw [hkeeps x (by omega) (by omega), h.spare x hx]
    rw [hzero]
    decide
  have hrun : a1fsUnlink img nestedTarget.path (fun _ => 0) = _ := hwf.unlink_run (p := 2) hi hnd
    (by decide) (fun _ => nestedTarget.bufferReads_zero) (by decide) rfl
  rw [hunlinked, hstray, removeDentry_nothing hcount, ok_bind] at hrun
  have hfile : IsFile img nestedTarget.path :=
    isFile_of_resolve hcons.hold hcons.tree.closed nestedTarget.component nestedTarget.length_lt hi
      hnd (by decide)
  refine ⟨U, ⟨hfile, hrun⟩, ?_, ?_, hkeeps⟩
  · rw [← hU]
    exact ((Layout.SameHead.refl _ _).setLinks hge).of hof
  · rw [extentLength_first, ← hU, GapClosed.inodeLinks_setLinks (by rw [hlinks]; decide), hlinks]

/-- With an extent of length 0 the directory `"/a"` is still found, has three links, and
lists nothing. -/
theorem outer_unlinked (h : Built smallLayout img nestedNodes 29 214) (hof : smallLayout.Of img')
    (hlength : extentLength img' (smallLayout.extentAt 1) (0 : Nat) = 0)
    (hkeeps : ∀ x, 4096 * (smallLayout.inodeTable : Int) ≤ x →
      (x < smallLayout.extentAt 1 + 4 ∨ smallLayout.extentAt 1 + 8 ≤ x) → img' x = img x) :
    pathInode img' outerTarget.path = .ok (1 : Nat) ∧
      sIsDir (inodeMode img' (smallLayout.recordAt 1)) ∧
      inodeLinks img' (smallLayout.recordAt 1) = 3 ∧
      a1fsReaddir img' outerTarget.path = .ok (0, []) := by
  have hcons := h.consistent
  have hclosed := hcons.tree.closed
  have hroot : nestedNodes 0 = some (rootNode.grown outerTarget.name 1) := rfl
  have hat := hcons.hold.nodeAt 1 _ nestedNodes_outer
  have hge := smallLayout.extentAt_ge 1
  have hrecord : ∀ j < 32, smallLayout.recordAt j + 64 ≤ smallLayout.extentAt 1 := by
    intro j hj
    have hlt := smallLayout.recordAt_lt (i := j) hj
    have hstart : smallLayout.extentAt 1 = 4096 * (smallLayout.extents + 1 : Nat) := rfl
    omega
  have hrootAt : (rootNode.grown outerTarget.name 1).At smallLayout img' 0 := by
    refine hcons.tree.at_congr hroot (hcons.hold.nodeAt 0 _ hroot) ?_ ?_ ?_
    · intro x hlo hhi
      have hle := smallLayout.recordAt_ge 0
      have hlt := hrecord 0 (by decide)
      exact hkeeps x (by omega) (by omega)
    · intro x hlo hhi
      have hle := smallLayout.extentAt_ge 0
      have hapart := Layout.extentAt_apart (L := smallLayout) (i := 0) (p := 1) (by decide)
      exact hkeeps x (by omega) (by omega)
    · intro _ b _ x hlo hhi
      have hle := smallLayout.blockAt_ge b
      have hdata := smallLayout.blockAt_ge_data b
      have hlt := smallLayout.extentAt_lt (i := 1) (by decide)
      exact hkeeps x (by omega) (by omega)
  have hread := hrootAt.helperEntries (hcons.tree.ok hroot) hof (hclosed.inode_lt 0 _ hroot)
    (by decide) (hclosed.entry_lt hroot)
  have hpath : pathInode img' outerTarget.path = .ok (1 : Nat) := by
    have haddr : inodeAddr img' 0 = smallLayout.recordAt 0 := hof.inodeAddr (i := 0) (by decide)
    have hcons' : pathInode img' outerTarget.path = walk img' (inodeAddr img' 0) [97] [] :=
      pathInode_cons outerTarget.component outerTarget.length_lt
    rw [hcons', walk, haddr, helper, hread]
    rfl
  have houter : AgreeOn img' img (smallLayout.recordAt 1) (smallLayout.recordAt 1 + 64) := by
    intro x hlo hhi
    have hle := smallLayout.recordAt_ge 1
    have hlt := hrecord 1 (by decide)
    exact hkeeps x (by omega) (by omega)
  obtain ⟨hmode, hlinks, hsize, hnumber, hcount⟩ := record_congr houter
  have haddr : inodeAddr img' (1 : Nat) = smallLayout.recordAt 1 := hof.inodeAddr (by decide)
  have hextent : extentAddr img' (1 : Nat) = smallLayout.extentAt 1 := hof.extentAddr (by decide)
  have hstart : extentStart img' (smallLayout.extentAt 1) (0 : Nat) = (1 : Nat) := by
    have hold := (hat.extents 0 (by decide)).1
    exact (extentStart_first fun x hlo hhi => hkeeps x (hge.trans hlo) (.inl hhi)).trans hold
  have hslots : directorySlots img' (smallLayout.recordAt 1) = [] := by
    have hblocks : fileBlocks img' (smallLayout.extentAt 1) (1 : Nat) = [] := by
      rw [fileBlocks, Int.toNat_natCast, List.range_one, List.flatMap_singleton,
        extentBlocks_eq hstart hlength (by decide)]
      rfl
    have hone : extentCount img' (smallLayout.recordAt 1) = (1 : Nat) := hcount.trans hat.count
    rw [directorySlots, hnumber, hat.number, hextent, hone, hblocks,
      List.flatMap_nil, List.take_nil]
  have hnames : readdirNames img' (1 : Nat) = .ok [] := by
    rw [readdirNames_eq_ok (by rw [haddr, hnumber, hat.number]), haddr, hslots]
    exact ⟨rfl, by decide⟩
  refine ⟨hpath, ?_, ?_, ?_⟩
  · rw [hmode, hat.mode]
    decide
  · rw [hlinks, hat.links]
    decide
  · rw [a1fsReaddir, hpath, ok_bind, if_neg (by decide), hnames]
    rfl

/-- The calls that make and remove entries. -/
def Call.MakesOrRemoves : Call → Prop
  | .mkdir .. | .create .. | .rmdir .. | .unlink .. => True
  | .write .. | .truncate .. => False

/-- After `a1fs_unlink` of `"/a/b/y"` the directory `"/a"` lists nothing, and `a1fs_rmdir`
refuses it. -/
theorem rmdir_refuses_unlisted :
    ¬ ∀ (img : Image) (size n : Nat) (calls : List Call) (img₁ : Image) (t : Target)
      (stale : Nat → UInt8), FreshImage img size n → (∀ c ∈ calls, c.MakesOrRemoves) →
      Run Performs img calls img₁ → IsDirectory img₁ t.path →
        ∃ names, a1fsReaddir img₁ t.path = .ok (0, names) ∧
          ((∃ img₂, a1fsRmdir img₁ t.path stale = .ok (-enotempty, img₂)) ↔
            ∃ name ∈ names, name ≠ dot ∧ name ≠ dotDot) := by
  intro hclaim
  obtain ⟨img₁, hfirst, _, hbuilt₁⟩ := makeOuter
  obtain ⟨img₂, hsecond, hbuilt₂⟩ := makeInner hbuilt₁
  obtain ⟨img₃, hthird, hbuilt₃⟩ := makeNested hbuilt₂
  obtain ⟨img₄, hfourth, hof, hlength, hkeeps⟩ := unlinkNested hbuilt₃
  obtain ⟨hpath, hdir, hlinks, hlisted⟩ := outer_unlinked hbuilt₃ hof hlength hkeeps
  have haddr : inodeAddr img₄ (1 : Nat) = smallLayout.recordAt 1 := hof.inodeAddr (by decide)
  have hdirectory : IsDirectory img₄ outerTarget.path := by
    obtain ⟨st, hst, hmode⟩ := getattr_of_pathInode outerTarget.length_lt hpath
    exact ⟨st, hst, by rw [hmode, haddr, hdir]⟩
  obtain ⟨names, hnames, hiff⟩ := hclaim _ _ _ _ _ outerTarget (fun _ => 0) smallImage_fresh
    (by simp [Call.MakesOrRemoves])
    ((((Run.nil.snoc hfirst.performs).snoc hsecond.performs).snoc hthird.performs).snoc
      hfourth.performs) hdirectory
  have hrefused : a1fsRmdir img₄ outerTarget.path (fun _ => 0) = .ok (-enotempty, img₄) := by
    rw [a1fsRmdir, if_neg outerTarget.path_ne_root, hpath, ok_bind]
    simp only [haddr, hlinks]
    rfl
  cases hlisted.symm.trans hnames
  obtain ⟨name, hmem, _⟩ := hiff.mp ⟨_, hrefused⟩
  cases hmem

end UoftOs.FileSystem
