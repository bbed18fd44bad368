import UoftOs.FileSystem.Emptiness
import UoftOs.FileSystem.Ownership

/-!
# Entries that are added

A safe `a1fs_mkdir` or `a1fs_create` takes an inode that was free and adds one name to one
directory: the new path leads to that inode, the other paths lead where they did, and the
other directories list what they listed. With one inode `a1fs_mkdir` takes one that is not
there, and stores the new extent over the entry `"."` of the root.
-/

namespace UoftOs.FileSystem

open Lib.ByteMemory Lib.NamedTree Lib.Transition

/-- A path of valid components that fits `path_inode`. -/
def ValidPath (cs : List Name) : Prop := (∀ c ∈ cs, ValidName c) ∧ (render cs).length < 4096

/-- The image has the entry for a new inode besides what the old one has. -/
structure AddsEntry (img img' : Image) (t : Target) : Prop where
  found : ∃ i : Nat, bitSet img (inodeMapAddr img) i = false ∧
    bitSet img' (inodeMapAddr img') i = true ∧ pathInode img' t.path = .ok (i : Int)
  kept : ∀ (cs : List Name) (i : Nat), ValidPath cs → pathInode img (render cs) = .ok (i : Int) →
    pathInode img' (render cs) = .ok (i : Int)
  listed : ∀ names, a1fsReaddir img t.parent = .ok (0, names) →
    ∃ names', a1fsReaddir img' t.parent = .ok (0, names') ∧
      ∀ name, name ∈ names' ↔ name ∈ names ∨ name = t.name
  others : ∀ cs, ValidPath cs → cs ≠ t.dirs → IsDirectory img (render cs) →
    a1fsReaddir img' (render cs) = a1fsReaddir img (render cs)

/-- The call sets the bit of one inode that was free, and no other. The new path leads to
this inode, and its record has its number. -/
def PicksFree (img img' : Image) (t : Target) : Prop :=
  ∃ i < inodesCount img, bitSet img (inodeMapAddr img) i = false ∧
    bitSet img' (inodeMapAddr img) i = true ∧ pathInode img' t.path = .ok (i : Int) ∧
      inoNumber img' (inodeAddr img' i) = i ∧
        ∀ k < inodeBits img, k ≠ i →
          bitSet img' (inodeMapAddr img) k = bitSet img (inodeMapAddr img) k

/-- The calls that take an inode. -/
def Call.Allocates : Call → Prop
  | .mkdir .. | .create .. => True
  | _ => False

/-- The entry that a call is about. -/
def Call.target : Call → Target
  | .mkdir t _ _ | .create t _ _ | .rmdir t _ | .unlink t _ | .write t _ _ | .truncate t _ => t

/-- The call finds zeros in the buffer `parent_path`. -/
def Call.ZeroBuffer : Call → Prop
  | .mkdir _ _ stale | .create _ _ stale | .rmdir _ stale | .unlink _ stale => ∀ k, stale k = 0
  | .write .. | .truncate .. => True

variable {L : Layout} {img img' img₁ img₂ : Image} {nodes : Nodes} {nd pn new : Node}
  {i j p size n : Nat} {t : Target} {cs : List Name} {calls : List Call}

namespace ValidPath

variable (h : ValidPath cs)
include h

theorem component : ∀ c ∈ cs, c ≠ [] ∧ slash ∉ c :=
  fun c hc => ⟨(h.1 c hc).nonempty, (h.1 c hc).noSlash⟩

theorem ne_dots : ∀ c ∈ cs, c ≠ dot ∧ c ≠ dotDot :=
  fun c hc => ⟨(h.1 c hc).ne_dot, (h.1 c hc).ne_dotDot⟩

end ValidPath

namespace Target

theorem validPath (t : Target) : ValidPath (t.dirs ++ [t.name]) := ⟨t.valid, t.length_lt⟩

theorem validParent (t : Target) : ValidPath t.dirs :=
  ⟨fun c hc => t.valid c (List.mem_append_left _ hc), t.length_parent_lt⟩

end Target

/-! ## Paths and listings of a consistent image -/

namespace Consistent

variable (h : Consistent L img nodes)
include h

theorem pathInode_eq (hcs : ValidPath cs) : pathInode img (render cs) = .ok (nodes.resolve cs) :=
  h.hold.pathInode h.tree.closed hcs.component hcs.2

theorem pathInode_iff (hcs : ValidPath cs) :
    pathInode img (render cs) = .ok (i : Int) ↔ Walk nodes.PassEdge 0 cs i := by
  rw [h.pathInode_eq hcs, ← h.tree.resolve_iff hcs.ne_dots, Except.ok.injEq]

end Consistent

theorem Nodes.passable_eq (h : nodes i = some nd) : nodes.passable i = plainDirectory nd.mode := by
  rw [passable, h]

/-! ## One entry more -/

section Added

variable (h : Consistent L img nodes) (hnew : NewEntry nodes t p pn) (hfree : nodes i = none)
include h hnew hfree

omit h in
theorem NewEntry.ne : p ≠ i := by
  rintro rfl
  have hsome := hnew.node
  rw [hfree] at hsome
  cases hsome

/-- The edges that paths pass are kept. -/
theorem NewEntry.passEdge {name : Name} {k : Nat} (hedge : nodes.PassEdge j name k) :
    (nodes.linked p pn t.name i new).PassEdge j name k := by
  obtain ⟨hpass, nd, hnd, hmem⟩ := hedge
  have hne : j ≠ i := by
    rintro rfl
    rw [hfree] at hnd
    cases hnd
  constructor
  · obtain ⟨nd', hnd', hmode⟩ := Nodes.linked_mode t.name new hfree hnew.node hnd
    rwa [Nodes.passable_eq hnd', hmode, ← Nodes.passable_eq hnd]
  · by_cases hp : j = p
    · subst hp
      rw [hnew.node] at hnd
      cases hnd
      obtain ⟨q, hat, _⟩ := h.tree.directory j pn hnew.node hnew.directory
      refine ⟨_, Nodes.linked_parent hne, ?_⟩
      rw [hat.children_grown]
      exact List.mem_append_left _ hmem
    · exact ⟨nd, by rw [Nodes.linked_other hne hp, hnd], hmem⟩

/-- The new entry is an edge. -/
theorem NewEntry.newEdge : (nodes.linked p pn t.name i new).PassEdge p t.name i := by
  have hne := hnew.ne hfree
  constructor
  · rcases hnew.passed with hdirs | hpass
    · have hparent := hnew.parent
      rw [hdirs, Nodes.resolve] at hparent
      exact .inl (by omega)
    · obtain ⟨nd', hnd', hmode⟩ := Nodes.linked_mode t.name new hfree hnew.node hnew.node
      rw [Nodes.passable_eq hnd', hmode, ← Nodes.passable_eq hnew.node]
      exact .inr hpass
  · obtain ⟨q, hat, _⟩ := h.tree.directory p pn hnew.node hnew.directory
    refine ⟨_, Nodes.linked_parent hne, ?_⟩
    rw [hat.children_grown]
    exact List.mem_append_right _ (List.mem_singleton_self _)

/-- The path of the parent leads where it did. -/
theorem NewEntry.walk_parent : Walk (nodes.linked p pn t.name i new).PassEdge 0 t.dirs p :=
  ((h.tree.resolve_iff t.validParent.ne_dots).mp hnew.parent).mono
    fun _ _ _ => hnew.passEdge h hfree

/-- The path of the new entry leads to its inode. -/
theorem NewEntry.path (h' : Consistent L img' (nodes.linked p pn t.name i new)) :
    pathInode img' t.path = .ok (i : Int) :=
  (h'.pathInode_iff t.validPath).mpr
    (walk_concat.mpr ⟨p, hnew.walk_parent h hfree, hnew.newEdge h hfree⟩)

/-- The image with the linked node has the entry besides what it had. -/
theorem NewEntry.addsEntry (h' : Consistent L img' (nodes.linked p pn t.name i new)) (hi : i < 8) :
    AddsEntry img img' t := by
  have hne := hnew.ne hfree
  have hbits := L.bits_ge
  have hwalk : Walk nodes.PassEdge 0 t.dirs p :=
    (h.tree.resolve_iff t.validParent.ne_dots).mp hnew.parent
  have hwalk' : Walk (nodes.linked p pn t.name i new).PassEdge 0 t.dirs p :=
    hnew.walk_parent h hfree
  constructor
  case found =>
      refine ⟨i, ?_, ?_, hnew.path h hfree h'⟩
      · rw [h.of.inodeMapAddr, h.inodeBits i (by omega), hfree]
        rfl
      · rw [h'.of.inodeMapAddr, h'.inodeBits i (by omega), Nodes.linked_new]
        rfl
  case kept =>
      intro cs j hcs hj
      rw [h.pathInode_iff hcs] at hj
      exact (h'.pathInode_iff hcs).mpr (hj.mono fun _ _ _ => hnew.passEdge h hfree)
  case listed =>
      intro names hnames
      have hold := h.readdir t.validParent.component t.validParent.2 hnew.parent hnew.node
        hnew.directory
      have hnow := h'.readdir t.validParent.component t.validParent.2
        ((h'.tree.resolve_iff t.validParent.ne_dots).mpr hwalk') (Nodes.linked_parent hne)
        hnew.directory
      cases hold.symm.trans hnames
      refine ⟨_, hnow, fun name => ?_⟩
      rw [Node.grown, List.map_append, List.mem_append, List.map_singleton, List.mem_singleton]
  case others =>
      intro cs hcs hother hdir
      obtain ⟨j, nd, hj, hnd, hmode⟩ :=
        hdir.node h.hold h.tree.closed hcs.component hcs.2
      have hjwalk := (h.tree.resolve_iff hcs.ne_dots).mp hj
      have hji : j ≠ i := by
        rintro rfl
        rw [hfree] at hnd
        cases hnd
      have hjp : j ≠ p := by
        rintro rfl
        exact hother (h.tree.passTree.walk_unique hjwalk hwalk)
      have hnd' : nodes.linked p pn t.name i new j = some nd := by
        rw [Nodes.linked_other hji hjp, hnd]
      rw [h.readdir hcs.component hcs.2 hj hnd hmode,
        h'.readdir hcs.component hcs.2 ((h'.tree.resolve_iff hcs.ne_dots).mpr
          (hjwalk.mono fun _ _ _ => hnew.passEdge h hfree)) hnd' hmode]

/-- The inode of the new entry was free. -/
theorem NewEntry.picksFree (h' : Consistent L img' (nodes.linked p pn t.name i new))
    (hi8 : i < 8) (hi : i < L.inodes) : PicksFree img img' t := by
  have hne := hnew.ne hfree
  have hbits := L.bits_ge
  refine ⟨i, ?_, ?_, ?_, hnew.path h hfree h', ?_, ?_⟩
  · rw [h.of.inodesCount]
    exact hi
  · rw [h.of.inodeMapAddr, h.inodeBits i (by omega), hfree]
    rfl
  · rw [h.of.inodeMapAddr, h'.inodeBits i (by omega), Nodes.isSome_linked hnew.node hne]
    simp
  · rw [h'.of.inodeAddr hi.le]
    exact (h'.hold.nodeAt i new Nodes.linked_new).number
  · intro k hk hki
    rw [h.inodeBits_eq] at hk
    rw [h.of.inodeMapAddr, h'.inodeBits k hk, h.inodeBits k hk,
      Nodes.isSome_linked hnew.node hne]
    simp [hki]

end Added

/-- Over runs of safe calls every new entry takes a free inode, and no two entries name
the same one. -/
theorem no_double_allocation (hfresh : FreshImage img size n) (run : SafeRun img calls img₁) :
    (∀ (c : Call) (img₂ : Image), c.Allocates → c.Allowed img₁ → c.Safe img₁ →
      c.run img₁ = .ok (0, img₂) → PicksFree img₁ img₂ c.target) ∧ UniqueEntries img₁ := by
  obtain ⟨nodes, hcons⟩ := run.consistent hfresh
  refine ⟨fun c img₂ halloc hallowed hsafe hrun => ?_, hcons.uniqueEntries⟩
  cases c with
  | mkdir t mode stale =>
      rcases hcons.mkdir_safe hallowed hsafe with hrefused |
        ⟨p, pn, i, b, img', hnew, hleast, hi8, hi, hok, hcons'⟩
      · cases hrefused.symm.trans hrun
      · cases hok.symm.trans hrun
        exact hnew.picksFree hcons (hcons.free_of_clear hi8 hleast.2.1) hcons' hi8 hi
  | create t mode stale =>
      rcases hcons.create_safe hallowed hsafe with hrefused |
        ⟨p, pn, i, img', hnew, hleast, hi8, hi, hok, hcons'⟩
      · cases hrefused.symm.trans hrun
      · cases hok.symm.trans hrun
        exact hnew.picksFree hcons (hcons.free_of_clear hi8 hleast.2.1) hcons' hi8 hi
  | rmdir t stale => exact absurd halloc id
  | unlink t stale => exact absurd halloc id
  | write t buf offset => exact absurd halloc id
  | truncate t size => exact absurd halloc id

theorem no_double_allocation_file : ∃ img₁, SafeRun smallImage [createFile] img₁ ∧
    (∀ (c : Call) (img₂ : Image), c.Allocates → c.Allowed img₁ → c.Safe img₁ →
      c.run img₁ = .ok (0, img₂) → PicksFree img₁ img₂ c.target) ∧ UniqueEntries img₁ := by
  obtain ⟨img₁, _, run, _⟩ := createFile_run
  exact ⟨img₁, run, no_double_allocation smallImage_fresh run⟩

/-- With one inode, which is the root's, `a1fs_mkdir` takes inode 1. -/
theorem mkdir_leaves_inode_table :
    ¬ ∀ (img : Image) (size n : Nat) (calls : List Call) (img₁ : Image), FreshImage img size n →
      Run Performs img calls img₁ →
        (∀ (c : Call) (img₂ : Image), c.Allocates → c.Allowed img₁ → c.run img₁ = .ok (0, img₂) →
          PicksFree img₁ img₂ c.target) ∧ UniqueEntries img₁ := by
  intro hclaim
  have hfresh : FreshImage oneInodeImage 1048576 1 :=
    ⟨by decide, by decide, by decide, _, fun _ => rfl, rfl⟩
  have h : Consistent (formatLayout 1048576 1 (by decide) (by decide)) oneInodeImage freshNodes :=
    hfresh.consistent
  obtain ⟨_, hblocks, hinodes⟩ : (formatLayout 1048576 1 (by decide) (by decide)).Of oneInodeImage ∧
      freeBlocksCount oneInodeImage = formatBlocks 1048576 1 ∧ freeInodesCount oneInodeImage = 1 :=
    mkfs_superblock (by decide) (by decide)
  have hfree : ¬ (freeInodesCount oneInodeImage = 0 ∨ freeBlocksCount oneInodeImage = 0) := by
    rw [hinodes, hblocks]
    decide
  obtain ⟨_, _, _, _, _, _, _, _, _, _, hrun⟩ := h.wellFormed.mkdir_run (t := fileTarget) (p := 0)
    rfl rfl (by decide) (by decide) bufferReads_zero hfree 0o755
  have hallowed : (Call.mkdir fileTarget 0o755 fun _ => 0).Allowed oneInodeImage := by
    refine ⟨?_, h.wellFormed.root_isDirectory, by decide, by decide⟩
    exact absent_of_resolve h.hold h.tree.closed fileTarget.component fileTarget.length_lt (by decide)
  obtain ⟨i, hi, hclear, _⟩ := (hclaim _ _ _ _ _ hfresh .nil).1
    (.mkdir fileTarget 0o755 fun _ => 0) _ trivial hallowed hrun
  rw [h.of.inodesCount] at hi
  obtain rfl : i = 0 := Nat.lt_one_iff.mp hi
  rw [h.of.inodeMapAddr, h.inodeBits 0 (by decide)] at hclear
  cases hclear

/-- Over runs of safe calls every new entry is added, and nothing else changes. -/
theorem adds_exactly_entry (hfresh : FreshImage img size n) (run : SafeRun img calls img₁)
    {c : Call} (halloc : c.Allocates) (hallowed : c.Allowed img₁) (hsafe : c.Safe img₁)
    (hrun : c.run img₁ = .ok (0, img₂)) : AddsEntry img₁ img₂ c.target := by
  obtain ⟨nodes, h⟩ := run.consistent hfresh
  cases c with
  | mkdir t mode stale =>
      rcases h.mkdir_safe hallowed hsafe with hrefused |
        ⟨p, pn, i, b, img', hnew, hleast, hi8, hi, hok, h'⟩
      · cases hrefused.symm.trans hrun
      · cases hok.symm.trans hrun
        exact hnew.addsEntry h (h.free_of_clear hi8 hleast.2.1) h' hi8
  | create t mode stale =>
      rcases h.create_safe hallowed hsafe with hrefused |
        ⟨p, pn, i, img', hnew, hleast, hi8, hi, hok, h'⟩
      · cases hrefused.symm.trans hrun
      · cases hok.symm.trans hrun
        exact hnew.addsEntry h (h.free_of_clear hi8 hleast.2.1) h' hi8
  | rmdir t stale => exact absurd halloc id
  | unlink t stale => exact absurd halloc id
  | write t buf offset => exact absurd halloc id
  | truncate t size => exact absurd halloc id

theorem adds_exactly_entry_outer : ∃ img₁,
    (Call.mkdir outerTarget 0o755 fun _ => 0).Allowed smallImage ∧
    (Call.mkdir outerTarget 0o755 fun _ => 0).Safe smallImage ∧
    (Call.mkdir outerTarget 0o755 fun _ => 0).run smallImage = .ok (0, img₁) ∧
    AddsEntry smallImage img₁ outerTarget := by
  obtain ⟨img₁, houter, hsafe, _⟩ := makeOuter
  exact ⟨img₁, houter.allowed, hsafe, houter.run,
    adds_exactly_entry smallImage_fresh .nil (c := .mkdir outerTarget 0o755 fun _ => 0) trivial
      houter.allowed hsafe houter.run⟩

/-! ## One inode -/

theorem dataStart_one_lt : dataStart 1 < 524288 := by decide

def oneInodeLayout : Layout := formatLayout 1048576 1 Nat.one_pos dataStart_one_lt

theorem oneInodeImage_fresh : FreshImage oneInodeImage 1048576 1 :=
  ⟨by decide, by decide, by decide, _, fun _ => rfl, rfl⟩

/-- The root directory with the extent of inode 1 over its first entry. -/
def overlaidRoot : Node where
  mode := rootNode.mode
  links := 3
  size := 768
  extents := [(0, 1)]
  entries := [([1], 1), (dotDot, 0), (fileTarget.name, 1)]

theorem overlaidRoot_ok : overlaidRoot.Ok oneInodeLayout := by
  constructor <;> decide

/-- An extent is stored where a directory entry has its number and the start of its name. -/
theorem putExtent_dentry {b : Nat} (hb : b < 4294967296) :
    StringAt (L.putExtent img i b) (L.extentAt i + 4) [1] ∧
      dentryIno (L.putExtent img i b) (L.extentAt i) = b := by
  obtain ⟨hstart, _⟩ := L.putExtent_fields img i hb
  have haddr : L.extentAt i + 8 * ((0 : Nat) : Int) = L.extentAt i := by omega
  rw [extentStart, haddr] at hstart
  refine ⟨?_, hstart⟩
  have hbytes : L.putExtent img i b =
      store (setExtentStart img (L.extentAt i) 0 b) (L.extentAt i + 8 * 0 + 4) [1, 0, 0, 0] := rfl
  have haddr' : L.extentAt i + 8 * 0 + 4 = L.extentAt i + 4 := by omega
  rw [hbytes, haddr']
  rw [StringAt, ← take_bytesAt (n := 4) (by decide), bytesAt_store_eq (n := 4) rfl]
  rfl

/-- The root after `a1fs_mkdir` of `"/f"`, when the extent block of inode 1 is the first data
block. -/
theorem overlaidRoot_at {mode : Nat} (hextent : L.extentAt 1 = L.blockAt 0)
    (htree : Tree L freshNodes) (hold : Holds L img freshNodes) :
    overlaidRoot.At L (L.linkedDirectory img 0 fileTarget.name mode 1 1) 0 := by
  have hat := hold.nodeAt 0 rootNode rfl
  have hslot : L.newSlot img 0 = L.blockAt 0 + 256 * rootNode.entries.length :=
    htree.newSlot_one rfl (by decide) hat hold.of rfl
  have htwo : rootNode.entries.length = 2 := rfl
  have hnext : L.blockAt 1 = L.blockAt 0 + 4096 := by
    unfold Layout.blockAt
    omega
  have hinodes := L.inodes_pos
  have hrecord := L.recordAt_lt hinodes
  have hrecord' : L.recordAt 1 + 64 ≤ 4096 * (L.extents : Int) := by
    have hle := L.records
    unfold Layout.recordAt
    omega
  have hfirst := L.extentAt_lt hinodes
  have hdata := L.blockAt_ge_data 0
  have hrecords : L.recordAt 1 = L.recordAt 0 + 64 := by
    unfold Layout.recordAt
    omega
  have hextents : L.extentAt 0 = 4096 * (L.extents : Int) := by
    unfold Layout.extentAt
    omega
  obtain ⟨E, hE⟩ : ∃ E, L.putExtent (L.growParent img 0) 1 1 = E := ⟨_, rfl⟩
  obtain ⟨F, hF⟩ : ∃ F, L.linkedDirectory img 0 fileTarget.name mode 1 1 = F := ⟨_, rfl⟩
  have hafter : ∀ x, (x < L.recordAt 1 ∨ L.recordAt 1 + 64 ≤ x) →
      (x < L.blockAt 1 ∨ L.blockAt 1 + 512 ≤ x) →
      (x < L.blockAt 0 + 512 ∨ L.blockAt 0 + 768 ≤ x) → F x = E x := by
    intro x hx hx' hx''
    rw [← hF, Layout.linkedDirectory, hslot, htwo]
    simp only [hE]
    rw [putDentry_apply (by decide) (by omega), Layout.putDots_apply hx', Layout.putRecord_apply hx]
  have hrecordF : AgreeOn F (L.growParent img 0) (L.recordAt 0) (L.recordAt 0 + 64) := by
    intro x hlo hhi
    rw [hafter x (by omega) (by omega) (by omega), ← hE, Layout.putExtent_apply (by omega)]
  have hfields := L.growParent_fields img 0 (by rw [hat.links]; decide) (by rw [hat.size]; decide)
  obtain ⟨hmode, hlinks, hsize, hnumber, hcount⟩ := record_congr hrecordF
  obtain ⟨hmode', hlinks', hsize', hnumber', hcount'⟩ := hfields
  have hextentF : AgreeOn F img (L.extentAt 0) (L.extentAt 0 + 8) := by
    intro x hlo hhi
    rw [hafter x (by omega) (by omega) (by omega), ← hE, Layout.putExtent_apply (by omega),
      Layout.growParent_apply (by omega)]
  rw [hF]
  constructor
  case mode => rw [hmode, hmode', hat.mode]; rfl
  case links => rw [hlinks, hlinks', hat.links]; rfl
  case size => rw [hsize, hsize', hat.size]; rfl
  case number => rw [hnumber, hnumber', hat.number]
  case count => rw [hcount, hcount', hat.count]; rfl
  case extents =>
      intro k hk
      obtain rfl : k = 0 := Nat.lt_one_iff.mp hk
      obtain ⟨hstart, hlength⟩ := hat.extents 0 (by decide)
      constructor
      · exact (u32_congr fun x hlo hhi => hextentF x (by omega) (by omega)).trans hstart
      · exact (u32_congr fun x hlo hhi => hextentF x (by omega) (by omega)).trans hlength
  case slots =>
      intro k hk
      have hk3 : k < 3 := hk
      have hone : overlaidRoot.slotAt L k = L.blockAt 0 + 256 * (k : Int) :=
        Node.slotAt_one rfl (by omega)
      rw [hone]
      rcases k with _ | _ | _ | k
      · have hagree : AgreeOn F E (L.blockAt 0) (L.blockAt 0 + 256) := fun x hlo hhi =>
          hafter x (by omega) (by omega) (by omega)
        have hdentry : StringAt E (L.extentAt 1 + 4) [1] ∧ dentryIno E (L.extentAt 1) = 1 :=
          hE ▸ putExtent_dentry (by decide)
        rw [hextent] at hdentry
        obtain ⟨hname, hino⟩ := hdentry
        obtain ⟨hname', hino'⟩ := dentry_congr hagree (by decide) hname
        have haddr : L.blockAt 0 + 256 * ((0 : Nat) : Int) = L.blockAt 0 := by omega
        rw [haddr]
        exact ⟨hname', hino'.trans hino⟩
      · have hslots := hat.slots 1 (by decide)
        rw [Node.slotAt_one rfl (by decide)] at hslots
        refine (dentry_congr (fun x hlo hhi => ?_) (show dotDot.length < 252 by decide)
          hslots.1).imp id fun hino => hino.trans hslots.2
        rw [hafter x (by omega) (by omega) (by omega), ← hE, Layout.putExtent_apply (by omega),
          Layout.growParent_apply (by omega)]
      · have haddr : L.blockAt 0 + 256 * ((0 + 1 + 1 : Nat) : Int) = L.newSlot img 0 := by
          rw [hslot, htwo]
        rw [haddr, ← hF]
        exact ⟨stringAt_putDentry, dentryIno_putDentry⟩
      · omega

/-- With one inode `a1fs_mkdir` takes the entry `"."` from the root's listing. -/
theorem mkdir_drops_dot :
    ¬ ∀ (img : Image) (size n : Nat) (calls : List Call) (img₁ img₂ : Image) (c : Call),
      FreshImage img size n → Run Performs img calls img₁ → c.Allocates → c.ZeroBuffer →
      c.Allowed img₁ → c.run img₁ = .ok (0, img₂) → AddsEntry img₁ img₂ c.target := by
  intro hclaim
  have h : Consistent oneInodeLayout oneInodeImage freshNodes := oneInodeImage_fresh.consistent
  obtain ⟨_, hblocks, hinodes⟩ : oneInodeLayout.Of oneInodeImage ∧
      freeBlocksCount oneInodeImage = formatBlocks 1048576 1 ∧ freeInodesCount oneInodeImage = 1 :=
    mkfs_superblock (by decide) (by decide)
  have hfree : ¬ (freeInodesCount oneInodeImage = 0 ∨ freeBlocksCount oneInodeImage = 0) := by
    rw [hinodes, hblocks]
    decide
  have hleast : LeastClear oneInodeImage oneInodeLayout.inodeMapAt 1 := by
    refine h.leastClear_inode (by decide) rfl fun k hk => ?_
    obtain rfl : k = 0 := by omega
    rfl
  have hbleast : LeastClear oneInodeImage oneInodeLayout.dataMapAt 1 := by
    refine h.leastClear_block (by decide) (fun i nd hnd he => ?_) fun c hc => ?_
    · obtain ⟨_, rfl⟩ := freshNodes_eq hnd
      exact absurd he (by decide)
    · obtain rfl : c = 0 := by omega
      exact ⟨0, rootNode, rfl, List.mem_singleton_self _⟩
  obtain ⟨i, b, img₁, img₂, htake₁, htake₂, _, _, hold₂, hhead, hrun⟩ := h.wellFormed.mkdir_run
    (t := fileTarget) (p := 0) rfl rfl (by decide) (by decide) bufferReads_zero hfree 0o755
  rw [hleast.takeFreeBit, Nat.mod_eq_of_lt (by decide)] at htake₁
  obtain ⟨rfl, rfl⟩ := Prod.mk.inj htake₁
  rw [(hbleast.modify_inodeMap (by decide)).takeFreeBit, Nat.mod_eq_of_lt (by decide)] at htake₂
  obtain ⟨_, rfl⟩ := Prod.mk.inj htake₂
  have hallowed : (Call.mkdir fileTarget 0o755 fun _ => 0).Allowed oneInodeImage := by
    refine ⟨?_, h.wellFormed.root_isDirectory, by decide, by decide⟩
    exact absent_of_resolve h.hold h.tree.closed fileTarget.component fileTarget.length_lt (by decide)
  have hadds := hclaim _ _ _ _ _ _ (.mkdir fileTarget 0o755 fun _ => 0) oneInodeImage_fresh .nil
    trivial (fun _ => rfl) hallowed hrun
  have hroot : ValidPath fileTarget.dirs := fileTarget.validParent
  have hbefore := h.readdir hroot.component hroot.2
    (show freshNodes.resolve fileTarget.dirs = ((0 : Nat) : Int) from rfl)
    (show freshNodes 0 = some rootNode from rfl) (by decide)
  obtain ⟨names, hnames, hmem⟩ := hadds.listed _ hbefore
  obtain ⟨img', himg'⟩ : ∃ img', setFreeInodesCount (setFreeBlocksCount
      (oneInodeLayout.linkedDirectory img₂ 0 fileTarget.name (0o755 ||| sIfDir) 1 1)
      (freeBlocksCount img₂ - 1)) (freeInodesCount img₂ - 1) = img' := ⟨_, rfl⟩
  have hof : oneInodeLayout.Of img' :=
    himg' ▸ (hhead.of hold₂.of).setFreeBlocksCount.setFreeInodesCount
  have hat : overlaidRoot.At oneInodeLayout img' 0 := by
    have hplaced : overlaidRoot.At oneInodeLayout
        (oneInodeLayout.linkedDirectory img₂ 0 fileTarget.name (0o755 ||| sIfDir) 1 1) 0 :=
      overlaidRoot_at (by decide) h.tree hold₂
    refine hplaced.of_sameTail overlaidRoot_ok fun x hx => ?_
    have hpos := oneInodeLayout.head_pos
    rw [← himg', setFreeInodesCount_apply (by omega), setFreeBlocksCount_apply (by omega)]
  have hafter : a1fsReaddir img' [slash] = .ok (0, overlaidRoot.entries.map Prod.fst) := by
    have hlist := hat.readdirNames overlaidRoot_ok hof (by decide) (by decide)
    rw [a1fsReaddir, show pathInode img' [slash] = .ok ((0 : Nat) : Int) from rfl, ok_bind,
      if_neg (by decide), hlist]
    rfl
  have hnames' : a1fsReaddir img' [slash] = .ok (0, names) := himg' ▸ hnames
  cases hafter.symm.trans hnames'
  exact absurd ((hmem dot).mpr (.inl List.mem_cons_self)) (by decide)

end UoftOs.FileSystem
