import UoftOs.FileSystem.Accounting
import UoftOs.FileSystem.Reading
import UoftOs.FileSystem.Rewriting
import UoftOs.FileSystem.Shrinking
import UoftOs.Lib.Transition

/-!
# Runs of the file system

FUSE makes allowed calls on an image, one after the other. A call is safe when it
stays clear of the branches of the driver that take or store in the wrong place.
Safe calls keep an image consistent, whatever came before.
-/

namespace UoftOs.FileSystem

open Lib.ByteMemory Lib.NamedTree Lib.Transition

/-- An allowed call that ends without a fault. -/
def Performs (img : Image) (c : Call) (img' : Image) : Prop :=
  c.Allowed img ∧ ∃ r, c.run img = .ok (r, img')

/-- The least clear bit of a bitmap stands in its first byte, and below `count`. -/
def FirstByteFree (img : Image) (a : Int) (count : Nat) : Prop :=
  ∃ k < 8, k < count ∧ LeastClear img a k

/-- The block belongs to a directory in use. -/
def InDirectory (img : Image) (b : Int) : Prop :=
  ∃ j < inodesCount img, bitSet img (inodeMapAddr img) j = true ∧ isDirectoryInode img j = true ∧
    b ∈ blocksOf img j

/-- Behind the last extent stands a data block of no directory. -/
def ClearBehind (img : Image) (i : Int) : Prop :=
  ∃ b : Nat, behindLastExtent img (inodeAddr img i) (extentAddr img i) = b ∧
    b < blocksCount img ∧ ¬ InDirectory img b

/-- The calls that stay clear of the wrong places. New inodes and blocks come from the
first bytes of the bitmaps, the parent's path is found in its buffer, `a1fs_unlink` works
in the root, a file gets one block, and the block behind it is not a directory's. -/
def Call.Safe (img : Image) : Call → Prop
  | .mkdir t _ stale =>
      (freeInodesCount img = 0 ∨ freeBlocksCount img = 0) ∨
        (t.path.length < 100 ∧ BufferReads stale t.dirs ∧
          FirstByteFree img (inodeMapAddr img) (inodesCount img) ∧
          FirstByteFree img (dataMapAddr img) (blocksCount img))
  | .create t _ stale =>
      (uint32 (freeInodesCount img - 1) = 0 ∨ freeBlocksCount img = 0) ∨
        (t.path.length < 100 ∧ BufferReads stale t.dirs ∧
          FirstByteFree img (inodeMapAddr img) (inodesCount img))
  | .rmdir t stale =>
      (Leads img t.path fun i => inodeLinks img (inodeAddr img i) ≠ 2) ∨
        (t.path.length < 100 ∧ (t.dirs ≠ [] → BufferReads stale t.dirs))
  | .unlink t _ => t.path.length < 100 ∧ t.dirs = []
  | .write t buf offset =>
      Leads img t.path fun i =>
        writtenSize (inodeSize img (inodeAddr img i)) offset buf.length ≤ 4096 ∧
          if extentCount img (inodeAddr img i) = 0 then
            FirstByteFree img (dataMapAddr img) (blocksCount img)
          else ClearBehind img i
  | .truncate t size =>
      Leads img t.path fun i =>
        extentCount img (inodeAddr img i) ≠ 0 ∧
          if size = inodeSize img (inodeAddr img i) then size = 4096
          else size ≤ 4096 ∧ KeepsLength (inodeSize img (inodeAddr img i)) size ∧ ClearBehind img i

variable {L : Layout} {img img' : Image} {nodes : Nodes} {nd pn : Node} {i j p b size offset : Nat}
  {t : Target} {stale : Nat → UInt8} {buf : List UInt8} {name : Name} {cs dirs : List Name} {r : Int}

/-! ## The parent of an absent path -/

theorem Nodes.resolveFrom_append {rest : List Name} {c : Name}
    (h : nodes.resolveFrom i name rest = (p : Int)) :
    nodes.resolveFrom i name (rest ++ [c]) =
      if nodes.passable p then Nodes.result (nodes.lookup p c) else -enotdir := by
  induction rest generalizing i name with
  | nil =>
      rw [resolveFrom] at h
      rw [List.nil_append, resolveFrom]
      cases hl : nodes.lookup i name with
      | none =>
          rw [hl] at h
          simp only [result, enoent] at h
          omega
      | some k =>
          rw [hl] at h
          simp only [result] at h
          obtain rfl : k = p := by omega
          rfl
  | cons next rest ih =>
      rw [resolveFrom] at h
      rw [List.cons_append, resolveFrom]
      cases hl : nodes.lookup i name with
      | none =>
          rw [hl] at h
          simp only [enoent] at h
          omega
      | some k =>
          rw [hl] at h
          simp only at h ⊢
          by_cases hpass : nodes.passable k
          · rw [if_pos hpass] at h ⊢
            exact ih h
          · rw [if_neg hpass] at h
            simp only [enotdir] at h
            omega

theorem Nodes.resolve_append {c : Name} (h : nodes.resolve dirs = (p : Int)) :
    nodes.resolve (dirs ++ [c]) =
      if dirs = [] ∨ nodes.passable p then Nodes.result (nodes.lookup p c) else -enotdir := by
  cases dirs with
  | nil =>
      rw [resolve] at h
      obtain rfl : p = 0 := by omega
      rfl
  | cons name rest =>
      rw [List.cons_append, resolve, resolveFrom_append h]
      simp

/-- A path is absent when its parent, which is passed through, has no such entry. -/
theorem Tree.absent_iff (h : Tree L nodes) (hp : nodes.resolve dirs = (p : Int))
    (hname : name ≠ dot ∧ name ≠ dotDot) :
    nodes.resolve (dirs ++ [name]) = -enoent ↔
      (dirs = [] ∨ nodes.passable p) ∧ ∀ k, ¬ nodes.Edge p name k := by
  rw [Nodes.resolve_append hp]
  by_cases hpass : dirs = [] ∨ nodes.passable p
  · rw [if_pos hpass, and_iff_right hpass]
    cases hl : nodes.lookup p name with
    | none =>
        refine iff_of_true rfl fun k hk => ?_
        rw [(h.lookup_eq_some hname).mpr hk] at hl
        cases hl
    | some k =>
        refine iff_of_false ?_ fun hnone => hnone k ((h.lookup_eq_some hname).mp hl)
        simp only [Nodes.result, enoent]
        omega
  · rw [if_neg hpass]
    exact iff_of_false (by decide) fun hand => hpass hand.1

/-- The directory that a new entry goes to. -/
structure NewEntry (nodes : Nodes) (t : Target) (p : Nat) (pn : Node) : Prop where
  parent : nodes.resolve t.dirs = p
  node : nodes p = some pn
  directory : sIsDir pn.mode
  passed : t.dirs = [] ∨ nodes.passable p
  absent : ∀ k, ¬ nodes.Edge p t.name k

/-! ## What the safe calls do -/

theorem or_sIfDir_lt {mode : Nat} (h : mode < 4294967296) : mode ||| sIfDir < 4294967296 :=
  Nat.or_lt_two_pow (n := 32) h (by decide)

namespace Consistent

variable (h : Consistent L img nodes)
include h

theorem newEntry (habsent : Absent img t.path) (hparent : IsDirectory img t.parent) :
    ∃ p pn, NewEntry nodes t p pn := by
  obtain ⟨st, hst⟩ := habsent
  have hnone := getattr_absent h.hold h.tree.closed t.component t.length_lt hst
  obtain ⟨p, pn, hp, hpn, hdir⟩ :=
    IsDirectory.node h.hold h.tree.closed t.dir_component t.length_parent_lt hparent
  have hname : t.name ≠ dot ∧ t.name ≠ dotDot := ⟨t.name_valid.ne_dot, t.name_valid.ne_dotDot⟩
  obtain ⟨hpass, habs⟩ := (h.tree.absent_iff hp hname).mp hnone
  exact ⟨p, pn, hp, hpn, hdir, hpass, habs⟩

theorem firstByte_inode : FirstByteFree img (inodeMapAddr img) (inodesCount img) ↔
    ∃ i, LeastClear img L.inodeMapAt i ∧ i < 8 ∧ i < L.inodes := by
  rw [FirstByteFree, h.of.inodeMapAddr, h.of.inodesCount]
  constructor
  · rintro ⟨i, hi8, hi, hleast⟩
    exact ⟨i, hleast, hi8, hi⟩
  · rintro ⟨i, hleast, hi8, hi⟩
    exact ⟨i, hi8, hi, hleast⟩

theorem firstByte_block : FirstByteFree img (dataMapAddr img) (blocksCount img) ↔
    ∃ b, LeastClear img L.dataMapAt b ∧ b < 8 ∧ b < L.blocks := by
  rw [FirstByteFree, h.of.dataMapAddr, h.of.blocksCount]
  constructor
  · rintro ⟨b, hb8, hb, hleast⟩
    exact ⟨b, hleast, hb8, hb⟩
  · rintro ⟨b, hleast, hb8, hb⟩
    exact ⟨b, hb8, hb, hleast⟩

/-- A safe `a1fs_mkdir` is refused or makes an empty directory. -/
theorem mkdir_safe {mode : Nat} (hc : (Call.mkdir t mode stale).Allowed img)
    (hsafe : (Call.mkdir t mode stale).Safe img) :
    a1fsMkdir img t.path mode stale = .ok (-enomem, img) ∨
      ∃ p pn i b img', NewEntry nodes t p pn ∧ LeastClear img L.inodeMapAt i ∧ i < 8 ∧
        i < L.inodes ∧ a1fsMkdir img t.path mode stale = .ok (0, img') ∧
        Consistent L img'
          (nodes.linked p pn t.name i (Node.emptyDirectory (mode ||| sIfDir) i p b)) := by
  obtain ⟨habsent, hparent, hdirMode, hmode⟩ := hc
  obtain ⟨p, pn, hnew⟩ := h.newEntry habsent hparent
  by_cases hrefused : freeInodesCount img = 0 ∨ freeBlocksCount img = 0
  · left
    rw [a1fsMkdir]
    exact if_pos hrefused
  · right
    obtain ⟨hlen, hbuf, hinode, hblock⟩ := hsafe.resolve_left hrefused
    obtain ⟨i, hleast, hi8, hi⟩ := h.firstByte_inode.mp hinode
    obtain ⟨b, hbleast, hb8, hb⟩ := h.firstByte_block.mp hblock
    obtain ⟨img', hrun, hcons⟩ := h.mkdir hnew.parent hnew.node hnew.directory hnew.absent hlen hbuf
      hleast ⟨hi8, hi⟩ ⟨hdirMode, uint32_natCast (or_sIfDir_lt hmode)⟩ hrefused hbleast ⟨hb8, hb⟩
    exact ⟨p, pn, i, b, img', hnew, hleast, hi8, hi, hrun, hcons⟩

/-- A safe `a1fs_create` is refused or makes an empty file. -/
theorem create_safe {mode : Nat} (hc : (Call.create t mode stale).Allowed img)
    (hsafe : (Call.create t mode stale).Safe img) :
    (a1fsCreate img t.path mode stale =
        .ok (-enomem, setFreeInodesCount img (freeInodesCount img - 1))) ∨
      ∃ p pn i img', NewEntry nodes t p pn ∧ LeastClear img L.inodeMapAt i ∧ i < 8 ∧
        i < L.inodes ∧ a1fsCreate img t.path mode stale = .ok (0, img') ∧
        Consistent L img' (nodes.linked p pn t.name i (Node.emptyFile mode)) := by
  obtain ⟨habsent, hparent, hreg, hmode⟩ := hc
  obtain ⟨p, pn, hnew⟩ := h.newEntry habsent hparent
  by_cases hrefused : uint32 (freeInodesCount img - 1) = 0 ∨ freeBlocksCount img = 0
  · exact .inl (create_refused hreg hrefused)
  · right
    obtain ⟨hlen, hbuf, hinode⟩ := hsafe.resolve_left hrefused
    obtain ⟨i, hleast, hi8, hi⟩ := h.firstByte_inode.mp hinode
    obtain ⟨img', hrun, hcons⟩ := h.create hnew.parent hnew.node hnew.directory hnew.absent hlen hbuf
      hleast ⟨hi8, hi⟩ hreg (uint32_natCast hmode) hrefused
    exact ⟨p, pn, i, img', hnew, hleast, hi8, hi, hrun, hcons⟩

/-- A safe `a1fs_rmdir` is refused or removes an empty directory. -/
theorem rmdir_safe (hc : (Call.rmdir t stale).Allowed img)
    (hsafe : (Call.rmdir t stale).Safe img) :
    ∃ (i : Nat) (nd : Node), nodes.resolve (t.dirs ++ [t.name]) = i ∧ nodes i = some nd ∧
      sIsDir nd.mode ∧
      ((nd.links ≠ 2 ∧ a1fsRmdir img t.path stale = .ok (-enotempty, img)) ∨
        (nd.links = 2 ∧ ∃ (img' : Image) (p : Nat) (pn : Node) (rest : List (Name × Nat)),
          a1fsRmdir img t.path stale = .ok (0, img') ∧ nodes.resolve t.dirs = p ∧
          nodes p = some pn ∧ sIsDir pn.mode ∧ nodes.Edge p t.name i ∧
          (∀ n k, ¬ nodes.Edge i n k) ∧ rest.Perm (pn.children.erase (t.name, i)) ∧
          Consistent L img' (nodes.unlinked p pn rest i) ∧ L.KeepsOthers img' img p)) := by
  obtain ⟨i, nd, hi, hnd, hdir⟩ :=
    IsDirectory.node h.hold h.tree.closed t.component t.length_lt hc
  have hlt := (h.tree.small i nd hnd).inode_lt
  refine ⟨i, nd, hi, hnd, hdir, ?_⟩
  by_cases hlinks : nd.links = 2
  · have hpath := WellFormed.pathInode_target h.wellFormed hi
    have hbuf := hsafe.resolve_left fun hleads => by
      rw [leads_iff hpath, h.of.inodeAddr hlt.le, (h.hold.nodeAt i nd hnd).links] at hleads
      exact hleads hlinks
    exact .inr ⟨hlinks, h.rmdir hi hnd hbuf.1 hbuf.2 hlinks hdir⟩
  · exact .inl ⟨hlinks, WellFormed.rmdir_refused h.wellFormed hi hnd hlinks⟩

/-- A safe `a1fs_unlink` removes a file. -/
theorem unlink_safe (hc : (Call.unlink t stale).Allowed img)
    (hsafe : (Call.unlink t stale).Safe img) :
    ∃ (i : Nat) (nd : Node), nodes.resolve (t.dirs ++ [t.name]) = i ∧ nodes i = some nd ∧
      ¬ sIsDir nd.mode ∧ ∃ (img' : Image) (pn : Node) (rest : List (Name × Nat)),
        a1fsUnlink img t.path stale = .ok (0, img') ∧ nodes 0 = some pn ∧ sIsDir pn.mode ∧
        nodes.Edge 0 t.name i ∧ (∀ n k, ¬ nodes.Edge i n k) ∧
        rest.Perm (pn.children.erase (t.name, i)) ∧
        Consistent L img' (nodes.unlinked 0 pn rest i) ∧ L.KeepsOthers img' img 0 := by
  obtain ⟨i, nd, hi, hnd, hfile⟩ := IsFile.node h.hold h.tree.closed t.component t.length_lt hc
  exact ⟨i, nd, hi, hnd, hfile, h.unlink hi hnd hsafe.1 hsafe.2 hfile⟩

theorem blocksOf_eq (hnd : nodes j = some nd) :
    blocksOf img j = nd.extents.map fun e => (e.1 : Int) := by
  have hsmall := h.tree.small j nd hnd
  have hlt := hsmall.inode_lt
  have hat := h.hold.nodeAt j nd hnd
  rw [blocksOf, h.of.inodeAddr hlt.le, h.of.extentAddr hlt.le, hat.count,
    hat.fileBlocks (h.tree.ok hnd), hsmall.blocks_eq, List.map_map]
  rfl

theorem mem_blocksOf (hnd : nodes j = some nd) : (b : Int) ∈ blocksOf img j ↔ (b, 1) ∈ nd.extents := by
  rw [h.blocksOf_eq hnd, List.mem_map]
  constructor
  · rintro ⟨⟨s, c⟩, he, hs⟩
    obtain ⟨_, rfl, _, _⟩ := (h.tree.small j nd hnd).mem_extents he
    obtain rfl := Int.ofNat_inj.mp hs
    exact he
  · exact fun he => ⟨_, he, rfl⟩

theorem isDirectory_eq (hnd : nodes j = some nd) : isDirectoryInode img j = sIsDir nd.mode := by
  have hlt := (h.tree.small j nd hnd).inode_lt
  rw [isDirectoryInode, h.of.inodeAddr hlt.le, (h.hold.nodeAt j nd hnd).mode]

/-- The blocks of directories, in the image. -/
theorem inDirectory_iff :
    InDirectory img b ↔ ∃ j nd, nodes j = some nd ∧ sIsDir nd.mode ∧ (b, 1) ∈ nd.extents := by
  have hbits := L.inodes_le_bits
  constructor
  · rintro ⟨j, hj, hbit, hdir, hmem⟩
    rw [h.of.inodesCount] at hj
    rw [h.of.inodeMapAddr, h.inodeBits j (by omega)] at hbit
    obtain ⟨nd, hnd⟩ := Option.isSome_iff_exists.mp hbit
    exact ⟨j, nd, hnd, h.isDirectory_eq hnd ▸ hdir, (h.mem_blocksOf hnd).mp hmem⟩
  · rintro ⟨j, nd, hnd, hdir, he⟩
    have hlt := (h.tree.small j nd hnd).inode_lt
    refine ⟨j, by rw [h.of.inodesCount]; exact hlt, ?_, by rw [h.isDirectory_eq hnd]; exact hdir,
      (h.mem_blocksOf hnd).mpr he⟩
    rw [h.of.inodeMapAddr, h.inodeBits j (by omega), hnd]
    rfl

/-- The block behind a file with one block. -/
theorem behind_one (hnd : nodes i = some nd) (hext : nd.extents = [(b, 1)]) :
    behindLastExtent img (inodeAddr img i) (extentAddr img i) = (b + 1 : Nat) := by
  have hlt := (h.tree.small i nd hnd).inode_lt
  have hbehind := behindLastExtent_eq (h.hold.nodeAt i nd hnd) (h.tree.ok hnd)
    (by rw [hext]; exact List.cons_ne_nil _ _)
  rw [h.of.inodeAddr hlt.le, h.of.extentAddr hlt.le, hbehind, Node.lastBlock_one hext]
  rfl

/-- The block behind a file with one block is a data block of no directory. -/
theorem clearBehind_one (hnd : nodes i = some nd) (hext : nd.extents = [(b, 1)])
    (hclear : ClearBehind img i) :
    b + 1 < L.blocks ∧ ∀ j nd', nodes j = some nd' → sIsDir nd'.mode → (b + 1, 1) ∉ nd'.extents := by
  obtain ⟨c, hc, hcount, hnone⟩ := hclear
  obtain rfl := Int.ofNat_inj.mp ((h.behind_one hnd hext).symm.trans hc)
  rw [h.of.blocksCount] at hcount
  refine ⟨hcount, fun j nd' hnd' hdir he => hnone ?_⟩
  exact h.inDirectory_iff.mpr ⟨j, nd', hnd', hdir, he⟩

/-- A safe `a1fs_write` gives the file its first block and stores in it, or stores behind
the file. -/
theorem write_safe (hc : (Call.write t buf offset).Allowed img)
    (hsafe : (Call.write t buf offset).Safe img) :
    ∃ (i : Nat) (nd : Node) (b : Nat) (img₁ img' : Image), nodes.resolve (t.dirs ++ [t.name]) = i ∧
      nodes i = some nd ∧ ¬ sIsDir nd.mode ∧
      a1fsWrite img t.path buf offset = .ok ((buf.length : Nat), img') ∧
      BlockStored L img' img₁ i b (writtenSize nd.size offset buf.length) ∧
      BlockWritten L img' img₁ b nd.size offset buf ∧
      ((nd.extents = [] ∧ LeastClear img L.dataMapAt b ∧ b < 8 ∧ b < L.blocks ∧
          img₁ = giveFirstBlock img (L.recordAt i) (L.extentAt i) L.dataMapAt b ∧
          Consistent L img' (nodes.updated i
            { nd with extents := [(b, 1)], size := writtenSize nd.size offset buf.length })) ∨
        ∃ c, nd.extents = [(c, 1)] ∧ b = c + 1 ∧ b < L.blocks ∧ img₁ = img ∧
          Consistent L img' (nodes.updated i
            { nd with size := writtenSize nd.size offset buf.length })) := by
  obtain ⟨i, nd, hi, hnd, hfile⟩ := IsFile.node h.hold h.tree.closed t.component t.length_lt hc.1
  have hsmall := h.tree.small i nd hnd
  have hlt := hsmall.inode_lt
  have hat := h.hold.nodeAt i nd hnd
  have hlast := h.tree.last_lt
  have hpath := WellFormed.pathInode_target h.wellFormed hi
  rw [Call.Safe, leads_iff hpath, h.of.inodeAddr hlt.le, hat.size, hat.count] at hsafe
  obtain ⟨hsize, hsafe⟩ := hsafe
  have hfits : offset + buf.length ≤ 4096 := by
    unfold writtenSize at hsize
    split at hsize <;> omega
  have hlength : int32 buf.length = (buf.length : Nat) := int32_natCast (by omega)
  rcases hsmall.extents with hext | ⟨c, hext, _, _⟩
  · rw [hext, if_pos (by rfl)] at hsafe
    obtain ⟨b, hleast, hb8, hb⟩ := h.firstByte_block.mp hsafe
    have hzero : nd.size = 0 := by
      have hle := hsmall.size_le
      rw [hext, List.length_nil] at hle
      omega
    have hgiven := h.gaveFirstBlock hnd hfile hext ⟨hb8, hb⟩ hleast.2.1
    obtain ⟨img₁, himg₁⟩ :
        ∃ img₁, giveFirstBlock img (L.recordAt i) (L.extentAt i) L.dataMapAt b = img₁ := ⟨_, rfl⟩
    rw [himg₁] at hgiven
    have hupdated : nodes.updated i { nd with extents := [(b, 1)] } i =
        some { nd with extents := [(b, 1)] } := Nodes.updated_self
    have hold : inodeSize img₁ (L.recordAt i) = nd.size := (hgiven.hold.nodeAt i _ hupdated).size
    obtain ⟨img', hwrite, hstored, hwritten⟩ := writeInto_within (by rw [hzero]; exact Nat.zero_le _)
      hfits hgiven.of hlt (show L.data + b < 524288 by omega) hold
    have hfind : findNextBit img L.dataMapAt = (b : Int) := by
      rw [hleast.findNextBit, Nat.mod_eq_of_lt hb8]
    have hrun : a1fsWrite img t.path buf offset = _ :=
      WellFormed.write_first h.wellFormed hi hnd hext
    rw [hfind, if_neg (by omega), himg₁, hwrite] at hrun
    refine ⟨i, nd, b, img₁, img', hi, hnd, hfile, ?_, hstored, hwritten,
      .inl ⟨hext, hleast, hb8, hb, himg₁.symm, ?_⟩⟩
    · rw [hrun, Except.map, hlength]
    · have hcons := hgiven.stored hupdated hfile hstored hsize fun j nd' hnd' hdir => by
        rcases Nodes.updated_cases hnd' with ⟨rfl, rfl⟩ | ⟨_, hsame⟩
        · exact absurd hdir hfile
        · exact h.unused_of_clear hb8 hleast.2.1 hsame
      rwa [Nodes.updated_updated] at hcons
  · rw [hext, if_neg (by simp)] at hsafe
    obtain ⟨hb, hdirs⟩ := h.clearBehind_one hnd hext hsafe
    have hold : nd.size ≤ 4096 := by
      have hle := hsmall.size_le
      rw [hext, List.length_singleton] at hle
      omega
    obtain ⟨img', hwrite, hstored, hwritten⟩ := writeInto_within hold hfits h.of hlt
      (show L.data + (c + 1) < 524288 by omega) hat.size
    have hrun : a1fsWrite img t.path buf offset = _ :=
      WellFormed.write_more h.wellFormed hi hnd (by rw [hext]; exact List.cons_ne_nil _ _)
    rw [Node.lastBlock_one hext, hwrite] at hrun
    refine ⟨i, nd, c + 1, img, img', hi, hnd, hfile, ?_, hstored, hwritten,
      .inr ⟨c, hext, rfl, hb, rfl, ?_⟩⟩
    · rw [hrun, Except.map, hlength]
    · exact h.stored hnd hfile hstored (by rw [hext, List.length_singleton]; omega) hdirs

/-- A safe `a1fs_truncate` stores another size and clears a part of the block behind the
file, or stores the size that the file has. -/
theorem truncate_safe (hc : (Call.truncate t size).Allowed img)
    (hsafe : (Call.truncate t size).Safe img) :
    ∃ (i : Nat) (nd : Node) (b : Nat) (img' : Image), nodes.resolve (t.dirs ++ [t.name]) = i ∧
      nodes i = some nd ∧ ¬ sIsDir nd.mode ∧ nd.extents = [(b, 1)] ∧
      a1fsTruncate img t.path size = .ok (0, img') ∧
      ((size ≠ nd.size ∧ size ≤ 4096 ∧ KeepsLength nd.size size ∧ b + 1 < L.blocks ∧
          BlockStored L img' (chargedBlocks img nd.size size) i (b + 1) size ∧
          Consistent L img' (nodes.updated i { nd with size := size })) ∨
        (size = 4096 ∧ nd.size = 4096 ∧ Consistent L img' (nodes.updated i nd) ∧
          ∀ x, (x < L.recordAt i ∨ L.recordAt i + 64 ≤ x) →
            (x < L.extentAt i ∨ L.extentAt i + 8 ≤ x) →
            img' x = chargedBlocks img 4096 4096 x)) := by
  obtain ⟨i, nd, hi, hnd, hfile⟩ := IsFile.node h.hold h.tree.closed t.component t.length_lt hc.1
  have hsmall := h.tree.small i nd hnd
  have hlt := hsmall.inode_lt
  have hat := h.hold.nodeAt i nd hnd
  have hlast := h.tree.last_lt
  have hpath := WellFormed.pathInode_target h.wellFormed hi
  rw [Call.Safe, leads_iff hpath, h.of.inodeAddr hlt.le, hat.size, hat.count] at hsafe
  obtain ⟨hcount, hsafe⟩ := hsafe
  obtain ⟨b, hext, _, hb⟩ := hsmall.extents.resolve_left fun hnil => by
    rw [hnil] at hcount
    exact hcount rfl
  by_cases hsame : size = nd.size
  · rw [if_pos hsame] at hsafe
    subst hsafe
    obtain ⟨img', hrun, hat', hkeeps⟩ :=
      truncate_same h.wellFormed hi hnd hext hsame.symm (hsmall.file hfile)
    refine ⟨i, nd, b, img', hi, hnd, hfile, hext, hrun,
      .inr ⟨rfl, hsame.symm, ?_, hkeeps⟩⟩
    have hcharged : Consistent L (chargedBlocks img 4096 4096) nodes := h.of_setFreeBlocksCount
    have hhead : L.SameHead img' (chargedBlocks img 4096 4096) := by
      have hge := L.recordAt_ge i
      have hge' := L.extentAt_ge i
      exact fun x _ hhi => hkeeps x (by omega) (by omega)
    refine hcharged.rewritten (b := L.blocks) hnd hfile rfl hsmall (fun _ he => he) ?_ ?_ hat'
      (hhead.of hcharged.of) (fun k hk => hhead.inodeBit hk) ?_
      (fun x _ hx hx' _ => hkeeps x hx hx')
    · intro j nd' e hji hnd' he he'
      exact hji (h.tree.apart j i nd' nd e hnd' hnd he' he)
    · intro j nd' hnd' _ he
      have hmem := (h.tree.small j nd' hnd').mem_extents he
      omega
    · intro c hc'
      rw [hhead.dataBit hc', hcharged.dataBits c hc']
      exact ⟨.inl, fun he => he.elim id fun he => ⟨i, nd, hnd, he⟩⟩
  · rw [if_neg hsame] at hsafe
    obtain ⟨hsize, hkeeps, hclear⟩ := hsafe
    obtain ⟨hbehind, hdirs⟩ := h.clearBehind_one hnd hext hclear
    have hcharged : Consistent L (chargedBlocks img nd.size size) nodes := h.of_setFreeBlocksCount
    obtain ⟨img', hrun, hstored⟩ := truncate_stored h.wellFormed hi hnd hext (by omega) hsame
      (lt_of_le_of_lt hsize (by decide)) hkeeps
    refine ⟨i, nd, b, img', hi, hnd, hfile, hext, hrun,
      .inl ⟨hsame, hsize, hkeeps, hbehind, hstored, ?_⟩⟩
    exact hcharged.stored hnd hfile hstored (by rw [hext, List.length_singleton]; omega) hdirs

/-- A safe call keeps the image consistent. -/
theorem performs {c : Call} (hc : Performs img c img') (hsafe : c.Safe img) :
    ∃ nodes', Consistent L img' nodes' := by
  obtain ⟨hallowed, r, hrun⟩ := hc
  cases c with
  | mkdir t mode stale =>
      rcases h.mkdir_safe hallowed hsafe with hrefused | ⟨_, _, _, _, img₁, _, _, _, _, hok, hcons⟩
      · cases hrefused.symm.trans hrun
        exact ⟨_, h⟩
      · cases hok.symm.trans hrun
        exact ⟨_, hcons⟩
  | create t mode stale =>
      rcases h.create_safe hallowed hsafe with hrefused | ⟨_, _, _, img₁, _, _, _, _, hok, hcons⟩
      · cases hrefused.symm.trans hrun
        exact ⟨_, h.of_setFreeInodesCount⟩
      · cases hok.symm.trans hrun
        exact ⟨_, hcons⟩
  | rmdir t stale =>
      obtain ⟨i, nd, _, _, _, hcases⟩ := h.rmdir_safe hallowed hsafe
      rcases hcases with ⟨_, hrefused⟩ | ⟨_, img₁, _, _, _, hok, _, _, _, _, _, _, hcons, _⟩
      · cases hrefused.symm.trans hrun
        exact ⟨_, h⟩
      · cases hok.symm.trans hrun
        exact ⟨_, hcons⟩
  | unlink t stale =>
      obtain ⟨_, _, _, _, _, img₁, _, _, hok, _, _, _, _, _, hcons, _⟩ := h.unlink_safe hallowed hsafe
      cases hok.symm.trans hrun
      exact ⟨_, hcons⟩
  | write t buf offset =>
      obtain ⟨_, _, _, _, img₁, _, _, _, hok, _, _, hcases⟩ := h.write_safe hallowed hsafe
      cases hok.symm.trans hrun
      rcases hcases with ⟨_, _, _, _, _, hcons⟩ | ⟨_, _, _, _, _, hcons⟩
      · exact ⟨_, hcons⟩
      · exact ⟨_, hcons⟩
  | truncate t size =>
      obtain ⟨_, _, _, img₁, _, _, _, _, hok, hcases⟩ := h.truncate_safe hallowed hsafe
      cases hok.symm.trans hrun
      rcases hcases with ⟨_, _, _, _, _, hcons⟩ | ⟨_, _, hcons, _⟩
      · exact ⟨_, hcons⟩
      · exact ⟨_, hcons⟩

end Consistent

/-! ## Runs from a fresh image -/

/-- Runs of allowed and safe calls. -/
abbrev SafeRun (img : Image) (calls : List Call) (img' : Image) : Prop :=
  Run (Guarded Performs fun img c => c.Safe img) img calls img'

/-- A fresh image of zeros whose layout fits. -/
structure FreshImage (img : Image) (size n : Nat) : Prop where
  inodes_pos : 0 < n
  fits : LayoutFits size n
  blocks_lt : size / 4096 < 524291
  formatted : ∃ raw : Image, (∀ x, raw x = 0) ∧ img = (mkfs raw size n).2

theorem FreshImage.consistent {n : Nat} (h : FreshImage img size n) :
    Consistent (formatLayout size n h.inodes_pos h.fits.1) img freshNodes := by
  obtain ⟨raw, hzero, rfl⟩ := h.formatted
  exact mkfs_consistent h.inodes_pos h.fits h.blocks_lt fun x _ _ => hzero x

/-- Every image that safe calls reach is consistent. -/
theorem SafeRun.consistent {n : Nat} {calls : List Call} (hfresh : FreshImage img size n)
    (run : SafeRun img calls img') :
    ∃ nodes, Consistent (formatLayout size n hfresh.inodes_pos hfresh.fits.1) img' nodes := by
  refine Run.state_invariant (I := fun img' => ∃ nodes, Consistent _ img' nodes)
    ⟨freshNodes, hfresh.consistent⟩ ?_ run
  rintro img₁ c img₂ ⟨nodes, hcons⟩ ⟨hperforms, hsafe⟩
  exact hcons.performs hperforms hsafe

/-! ## The first file -/

/-- The least clear inode bit belongs to the least free inode. -/
theorem Consistent.leastClear_inode (h : Consistent L img nodes) (hi : i < 8)
    (hfree : nodes i = none) (hused : ∀ k < i, (nodes k).isSome) :
    LeastClear img L.inodeMapAt i := by
  have hbits := L.bits_ge
  refine ⟨by omega, ?_, fun k hk => ?_⟩
  · rw [h.inodeBits i (by omega), hfree]
    rfl
  · rw [h.inodeBits k (by omega), hused k hk]

/-- The least clear data bit belongs to the least free block. -/
theorem Consistent.leastClear_block (h : Consistent L img nodes) (hb : b < 8)
    (hfree : ∀ i nd, nodes i = some nd → (b, 1) ∉ nd.extents)
    (hused : ∀ c < b, ∃ i nd, nodes i = some nd ∧ (c, 1) ∈ nd.extents) :
    LeastClear img L.dataMapAt b := by
  refine ⟨by omega, ?_, fun c hc => (h.dataBits c (by omega)).mpr (hused c hc)⟩
  rw [Bool.eq_false_iff, ne_eq, h.dataBits b (by omega)]
  rintro ⟨i, nd, hnd, he⟩
  exact hfree i nd hnd he

/-- The fresh file system of 1 MiB with 32 inodes. -/
def smallImage : Image := (mkfs (fun _ => 0) 1048576 32).2

def smallLayout : Layout := formatLayout 1048576 32 (by decide) (by decide)

theorem smallImage_fresh : FreshImage smallImage 1048576 32 :=
  ⟨by decide, by decide, by decide, _, fun _ => rfl, rfl⟩

theorem map_range_zero (n : Nat) : (List.range (n + 1)).map (fun _ => (0 : UInt8)) =
    terminated [] ++ (List.range n).map fun _ => 0 := by
  rw [List.range_succ_eq_map, List.map_cons, List.map_map]
  rfl

/-- The buffer `parent_path` of zeros. -/
theorem bufferReads_zero : BufferReads (fun _ => 0) [] := by
  rw [BufferReads, if_pos rfl]
  refine ⟨[], ?_, .inl rfl⟩
  rw [parentPath, List.nil_append, List.length_nil, Nat.sub_zero, map_range_zero 4095]
  exact cstr_append (by simp [ZeroFree]) _

/-- The file `"/f"` in inode 1. -/
def fileNodes : Nodes :=
  freshNodes.linked 0 rootNode fileTarget.name 1 (Node.emptyFile 0o100644)

/-- The first call of `a1fs_create`. -/
def createFile : Call := .create fileTarget 0o100644 fun _ => 0

theorem createFile_run : ∃ img, createFile.run smallImage = .ok (0, img) ∧
    SafeRun smallImage [createFile] img ∧ Consistent smallLayout img fileNodes := by
  have h : Consistent smallLayout smallImage freshNodes := smallImage_fresh.consistent
  have hleast : LeastClear smallImage smallLayout.inodeMapAt 1 := by
    refine h.leastClear_inode (by decide) rfl fun k hk => ?_
    obtain rfl : k = 0 := by omega
    rfl
  obtain ⟨_, hblocks, hinodes⟩ : smallLayout.Of smallImage ∧
      freeBlocksCount smallImage = formatBlocks 1048576 32 ∧ freeInodesCount smallImage = 32 :=
    mkfs_superblock (by decide) (by decide)
  have hfree : ¬ (uint32 (freeInodesCount smallImage - 1) = 0 ∨ freeBlocksCount smallImage = 0) := by
    rw [hinodes, hblocks]
    decide
  obtain ⟨img, hrun, hcons⟩ := h.create (t := fileTarget) (p := 0) rfl rfl (by decide)
    (fun k => edge_fresh) (by decide) bufferReads_zero hleast ⟨by decide, by decide⟩
    (show sIsReg 0o100644 by decide) rfl hfree
  have hallowed : createFile.Allowed smallImage :=
    fresh_allows_create h.wellFormed (by decide) (by decide)
  have hsafe : createFile.Safe smallImage :=
    .inr ⟨by decide, bufferReads_zero,
      h.firstByte_inode.mpr ⟨1, hleast, by decide, by decide⟩⟩
  exact ⟨img, hrun, Run.nil.snoc ⟨⟨hallowed, 0, hrun⟩, hsafe⟩, hcons⟩

/-- The extents of the first file and the root. -/
theorem mem_fileNodes_extents {e : Nat × Nat} (hnd : fileNodes i = some nd) (he : e ∈ nd.extents) :
    e = (0, 1) := by
  rcases Nodes.linked_cases hnd with ⟨_, rfl⟩ | ⟨_, _, rfl⟩ | ⟨_, _, hold⟩
  · cases he
  · exact List.mem_singleton.mp he
  · obtain ⟨_, rfl⟩ := freshNodes_eq hold
    exact List.mem_singleton.mp he

theorem fileNodes_resolve :
    fileNodes.resolve (fileTarget.dirs ++ [fileTarget.name]) = ((1 : Nat) : Int) := by decide

theorem Consistent.fileNodes_isFile (h : Consistent smallLayout img fileNodes) :
    IsFile img fileTarget.path :=
  isFile_of_resolve h.hold h.tree.closed fileTarget.component fileTarget.length_lt fileNodes_resolve
    (show fileNodes 1 = some (Node.emptyFile 0o100644) from rfl) (by decide)

/-- The first block that is free belongs to the first file. -/
theorem Consistent.fileNodes_leastClear (h : Consistent smallLayout img fileNodes) :
    LeastClear img smallLayout.dataMapAt 1 := by
  refine h.leastClear_block (by decide) (fun i nd hnd he => ?_) fun c hc => ?_
  · exact absurd (mem_fileNodes_extents hnd he) (by decide)
  · obtain rfl : c = 0 := by omega
    exact ⟨0, _, Nodes.linked_parent (by decide), List.mem_singleton_self _⟩

/-- A write within the first block of the new file is allowed and safe. -/
theorem Consistent.fileNodes_write (h : Consistent smallLayout img fileNodes)
    (hfits : offset + buf.length ≤ 4096) :
    (Call.write fileTarget buf offset).Allowed img ∧ (Call.write fileTarget buf offset).Safe img := by
  have hpath := WellFormed.pathInode_target h.wellFormed fileNodes_resolve
  have hat := h.hold.nodeAt 1 _ (show fileNodes 1 = some (Node.emptyFile 0o100644) from rfl)
  have hcount : extentCount img (smallLayout.recordAt 1) = 0 := hat.count
  have hsize : inodeSize img (smallLayout.recordAt 1) = 0 := hat.size
  have haddr : inodeAddr img (1 : Nat) = smallLayout.recordAt 1 := h.of.inodeAddr (by decide)
  refine ⟨⟨h.fileNodes_isFile, by omega, by omega⟩, ?_⟩
  rw [Call.Safe, leads_iff hpath, haddr, hcount, hsize, if_pos rfl]
  refine ⟨?_, h.firstByte_block.mpr ⟨1, h.fileNodes_leastClear, by decide, by decide⟩⟩
  unfold writtenSize
  split <;> omega

end UoftOs.FileSystem
