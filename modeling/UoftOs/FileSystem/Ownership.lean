import UoftOs.FileSystem.Failures
import UoftOs.FileSystem.Runs

/-!
# Who has which inode and block

Over runs of safe calls no two entries name one inode, and the data bitmap marks the
blocks of the inodes in use, none of them twice.
-/

namespace UoftOs.FileSystem

open Lib.ByteMemory Lib.NamedTree Lib.Transition

/-- The number of bits of the inode bitmap. -/
def inodeBits (img : Image) : Nat := 32768 * (startDataMap img - startInodeMap img).toNat

/-- The inodes whose bit is set. -/
def liveInodes (img : Image) : List Nat :=
  (List.range (inodeBits img)).filter fun j => bitSet img (inodeMapAddr img) j

/-- The data blocks that the extents of the inodes in use list. -/
def mappedBlocks (img : Image) : List Int := (liveInodes img).flatMap (blocksOf img)

/-- No block is listed twice, each is a data block, and just these are marked. -/
structure OwnsBlocks (img : Image) : Prop where
  distinct : (mappedBlocks img).Nodup
  inside : ∀ b ∈ mappedBlocks img, 0 ≤ b ∧ b < blocksCount img
  marked : ∀ b < 65536, bitSet img (dataMapAddr img) b = true ↔ (b : Int) ∈ mappedBlocks img

/-- The entry at position `x` of a directory in use. -/
def EntryAt (img : Image) (i x : Nat) (name : Name) (ino : Int) : Prop :=
  i ∈ liveInodes img ∧ isDirectoryInode img i = true ∧
    ∃ d, (slotsOf img i)[x]? = some d ∧ readDentry img d = .ok (name, ino)

/-- No two entries other than `"."` and `".."` name the same inode. -/
def UniqueEntries (img : Image) : Prop :=
  ∀ i j x y name name' ino, EntryAt img i x name ino → EntryAt img j y name' ino →
    name ≠ dot → name ≠ dotDot → name' ≠ dot → name' ≠ dotDot → i = j ∧ x = y

variable {L : Layout} {img img' img₁ : Image} {nodes : Nodes} {nd : Node} {i j b size n : Nat}
  {calls : List Call} {name : Name} {ino : Int}

/-! ## The inodes in use -/

namespace Consistent

variable (h : Consistent L img nodes)
include h

theorem inodeBits_eq : FileSystem.inodeBits img = L.inodeBitCount := by
  have hlt := L.inodeMap_lt
  rw [FileSystem.inodeBits, h.of.startDataMap, h.of.startInodeMap, Layout.inodeBitCount]
  omega

theorem mem_liveInodes : j ∈ liveInodes img ↔ ∃ nd, nodes j = some nd := by
  have hbits := L.inodes_le_bits
  rw [liveInodes, List.mem_filter, List.mem_range, h.inodeBits_eq, h.of.inodeMapAddr]
  constructor
  · rintro ⟨hj, hbit⟩
    rw [h.inodeBits j hj] at hbit
    exact Option.isSome_iff_exists.mp hbit
  · rintro ⟨nd, hnd⟩
    have hlt := (h.tree.small j nd hnd).inode_lt
    refine ⟨by omega, ?_⟩
    rw [h.inodeBits j (by omega), hnd]
    rfl

theorem ownsBlocks : OwnsBlocks img := by
  have hmem : ∀ b : Int, b ∈ mappedBlocks img ↔ ∃ j nd, nodes j = some nd ∧ b ∈ blocksOf img j := by
    intro b
    rw [mappedBlocks, List.mem_flatMap]
    constructor
    · rintro ⟨j, hj, hb⟩
      obtain ⟨nd, hnd⟩ := h.mem_liveInodes.mp hj
      exact ⟨j, nd, hnd, hb⟩
    · rintro ⟨j, nd, hnd, hb⟩
      exact ⟨j, h.mem_liveInodes.mpr ⟨nd, hnd⟩, hb⟩
  -- The blocks of a node are natural numbers.
  have hnat : ∀ {j nd} {b : Int}, nodes j = some nd → b ∈ blocksOf img j →
      ∃ c : Nat, b = c ∧ (c, 1) ∈ nd.extents := by
    intro j nd b hnd hb
    have hb' := hb
    rw [h.blocksOf_eq hnd, List.mem_map] at hb'
    obtain ⟨e, _, rfl⟩ := hb'
    exact ⟨e.1, rfl, (h.mem_blocksOf hnd).mp hb⟩
  refine ⟨?_, ?_, ?_⟩
  · rw [mappedBlocks, List.nodup_flatMap]
    constructor
    · intro j hj
      obtain ⟨nd, hnd⟩ := h.mem_liveInodes.mp hj
      rw [h.blocksOf_eq hnd]
      rcases (h.tree.small j nd hnd).extents with hnil | ⟨b, hone, _⟩
      · rw [hnil]
        exact List.nodup_nil
      · rw [hone]
        exact List.nodup_singleton _
    · have hlive : (liveInodes img).Nodup := List.nodup_range.filter _
      refine hlive.imp_of_mem fun {j k} hj hk hne b hb hb' => ?_
      obtain ⟨nd, hnd⟩ := h.mem_liveInodes.mp hj
      obtain ⟨nd', hnd'⟩ := h.mem_liveInodes.mp hk
      obtain ⟨c, rfl, he⟩ := hnat hnd hb
      exact hne (h.tree.apart j k nd nd' _ hnd hnd' he ((h.mem_blocksOf hnd').mp hb'))
  · intro b hb
    obtain ⟨j, nd, hnd, hb⟩ := (hmem b).mp hb
    obtain ⟨c, rfl, he⟩ := hnat hnd hb
    have hlt := ((h.tree.small j nd hnd).mem_extents he).2.2.2
    rw [h.of.blocksCount]
    omega
  · intro b hb
    rw [h.of.dataMapAddr, h.dataBits b hb, hmem]
    exact exists_congr fun j => exists_congr fun nd => and_congr_right fun hnd =>
      (h.mem_blocksOf hnd).symm

/-- The slots of a directory and what stands in them. -/
theorem slotsOf_eq (hnd : nodes i = some nd) (hdir : sIsDir nd.mode) :
    slotsOf img i = (List.range nd.entries.length).map (nd.slotAt L) ∧
      ∀ x (hx : x < nd.entries.length),
        readDentry img (nd.slotAt L x) = .ok (nd.entries[x].1, (nd.entries[x].2 : Int)) := by
  have hlt := (h.tree.small i nd hnd).inode_lt
  have hat := h.hold.nodeAt i nd hnd
  have hok := h.tree.ok hnd
  have hinodes := L.inodes_lt
  constructor
  · rw [← hat.directorySlots hok h.of hlt hdir, slotsOf, directorySlots, h.of.inodeAddr hlt.le,
      hat.number]
  · intro x hx
    obtain ⟨hname, hino⟩ := hat.slots x hx
    have hmem := List.getElem_mem hx
    obtain ⟨hfree, hshort⟩ := hok.names _ hmem
    obtain ⟨nd', hnd'⟩ := Option.isSome_iff_exists.mp (h.tree.closed.entries i nd hnd _ hmem)
    have hlt' := (h.tree.small _ nd' hnd').inode_lt
    rw [readDentry, hname.cstr_bytesAt hfree hshort, hino]
    simp only
    rw [int32_of_bounds (by omega) (by omega)]

theorem entryAt_iff : EntryAt img i j name ino ↔
    ∃ nd k, nodes i = some nd ∧ sIsDir nd.mode ∧ nd.entries[j]? = some (name, k) ∧ ino = (k : Nat) := by
  constructor
  · rintro ⟨hlive, hdir, d, hd, hread⟩
    obtain ⟨nd, hnd⟩ := h.mem_liveInodes.mp hlive
    rw [h.isDirectory_eq hnd] at hdir
    obtain ⟨hslots, hreads⟩ := h.slotsOf_eq hnd hdir
    rw [hslots, List.getElem?_map, Option.map_eq_some_iff] at hd
    obtain ⟨x, hx, rfl⟩ := hd
    obtain ⟨hlt, hxj⟩ := List.getElem?_eq_some_iff.mp hx
    rw [List.getElem_range] at hxj
    subst hxj
    rw [List.length_range] at hlt
    rw [hreads j hlt] at hread
    cases hread
    exact ⟨nd, _, hnd, hdir, List.getElem?_eq_getElem hlt, rfl⟩
  · rintro ⟨nd, k, hnd, hdir, hget, rfl⟩
    obtain ⟨hlt, heq⟩ := List.getElem?_eq_some_iff.mp hget
    obtain ⟨hslots, hreads⟩ := h.slotsOf_eq hnd hdir
    refine ⟨h.mem_liveInodes.mpr ⟨nd, hnd⟩, by rw [h.isDirectory_eq hnd, hdir], nd.slotAt L j, ?_, ?_⟩
    · rw [hslots, List.getElem?_map, List.getElem?_range hlt]
      rfl
    · rw [hreads j hlt, heq]

theorem uniqueEntries : UniqueEntries img := by
  -- An entry behind the first two is an edge, at its place among the children.
  have hedge : ∀ {i x name ino}, EntryAt img i x name ino → name ≠ dot → name ≠ dotDot →
      ∃ nd k y, nodes i = some nd ∧ sIsDir nd.mode ∧ ino = (k : Nat) ∧ x = y + 2 ∧
        nd.children[y]? = some (name, k) := by
    intro i x name ino hentry hdot hdotDot
    obtain ⟨nd, k, hnd, hdir, hget, hino⟩ := h.entryAt_iff.mp hentry
    obtain ⟨p, hat, _⟩ := h.tree.directory i nd hnd hdir
    rw [hat.entries] at hget
    rcases x with _ | _ | y
    · cases hget
      exact absurd rfl hdot
    · cases hget
      exact absurd rfl hdotDot
    · exact ⟨nd, k, y, hnd, hdir, hino, rfl, hget⟩
  intro i j x y name name' ino hentry hentry' hdot hdotDot hdot' hdotDot'
  obtain ⟨nd, k, u, hnd, hdir, hk, rfl, hu⟩ := hedge hentry hdot hdotDot
  obtain ⟨nd', k', v, hnd', hdir', hk', rfl, hv⟩ := hedge hentry' hdot' hdotDot'
  obtain rfl : k = k' := Int.ofNat_inj.mp (hk.symm.trans hk')
  obtain ⟨rfl, rfl⟩ := h.tree.tree.unique i j name name' k ⟨nd, hnd, List.mem_of_getElem? hu⟩
    ⟨nd', hnd', List.mem_of_getElem? hv⟩
  rw [hnd] at hnd'
  cases hnd'
  obtain ⟨p, hat, _⟩ := h.tree.directory i nd hnd hdir
  have hnodup := hat.nodup.of_map
  obtain ⟨hult, hueq⟩ := List.getElem?_eq_some_iff.mp hu
  obtain ⟨hvlt, hveq⟩ := List.getElem?_eq_some_iff.mp hv
  have hsame := (@List.Nodup.getElem_inj_iff _ _ hnodup u hult v hvlt).mp (hueq.trans hveq.symm)
  exact ⟨rfl, by omega⟩

end Consistent

/-- Over runs of safe calls the data bitmap marks the blocks of the inodes in use. -/
theorem blocks_owned (hfresh : FreshImage img size n) (run : SafeRun img calls img₁) :
    OwnsBlocks img₁ := by
  obtain ⟨nodes, hcons⟩ := run.consistent hfresh
  exact hcons.ownsBlocks

theorem blocks_owned_file : ∃ img₁, SafeRun smallImage [createFile] img₁ ∧ OwnsBlocks img₁ := by
  obtain ⟨img₁, _, run, _⟩ := createFile_run
  exact ⟨img₁, run, blocks_owned smallImage_fresh run⟩

/-- The new file gets block 2 by `a1fs_truncate`, because inode 2 is free. -/
theorem truncateFile_run : ∃ img₁ img₂, SafeRun smallImage [createFile] img₁ ∧
    Consistent smallLayout img₁ fileNodes ∧ Performs img₁ (.truncate fileTarget 1) img₂ ∧
    smallLayout.Of img₂ ∧ blocksOf img₂ 1 = [2] ∧
    bitSet img₁ smallLayout.inodeMapAt 2 = false ∧ bitSet img₂ smallLayout.inodeMapAt 2 = true ∧
    bitSet img₂ smallLayout.inodeMapAt 1 = true ∧ bitSet img₂ smallLayout.dataMapAt 2 = false := by
  obtain ⟨img₁, _, run, h⟩ := createFile_run
  have hnd : fileNodes 1 = some (Node.emptyFile 0o100644) := rfl
  have hleast : LeastClear img₁ smallLayout.inodeMapAt 2 := by
    refine h.leastClear_inode (by decide) rfl fun k hk => ?_
    obtain rfl | rfl : k = 0 ∨ k = 1 := by omega
    · rfl
    · rfl
  obtain ⟨img₂, hrun, hof, hcount, hblocks, htaken, hinodes, hdata⟩ :=
    truncate_empty h.wellFormed fileNodes_resolve hnd rfl rfl (show (1 : Nat) ≠ 0 by decide) (by decide) hleast
      (by decide) (by decide)
  have hallowed : (Call.truncate fileTarget 1).Allowed img₁ :=
    ⟨h.fileNodes_isFile, by decide⟩
  refine ⟨img₁, img₂, run, h, ⟨hallowed, 0, hrun⟩, hof, ?_, hleast.2.1, htaken, ?_, ?_⟩
  · have haddr : inodeAddr img₂ (1 : Nat) = smallLayout.recordAt 1 := hof.inodeAddr (by decide)
    have hextent : extentAddr img₂ (1 : Nat) = smallLayout.extentAt 1 := hof.extentAddr (by decide)
    rw [blocksOf, haddr, hextent, hcount, fileBlocks, Int.toNat_one, List.range_one,
      List.flatMap_singleton, hblocks]
    rfl
  · refine hinodes 1 (by decide) ?_
    rw [h.inodeBits 1 (by decide)]
    rfl
  · rw [hdata 2 (by decide), Bool.eq_false_iff, ne_eq, h.dataBits 2 (by decide)]
    rintro ⟨i, nd, hnd, he⟩
    exact absurd (mem_fileNodes_extents hnd he) (by decide)

/-- The block that `a1fs_truncate` takes from the inode bitmap is not marked. -/
theorem truncate_maps_unmarked_block :
    ¬ ∀ (img : Image) (size n : Nat) (calls : List Call) (img' : Image), FreshImage img size n →
      Run Performs img calls img' → OwnsBlocks img' := by
  intro hclaim
  obtain ⟨img₁, img₂, run, _, hperforms, hof, hblocks, _, _, hlive, hdata⟩ := truncateFile_run
  have howns := hclaim _ _ _ _ _ smallImage_fresh (run.unguard.snoc hperforms)
  have hmem : 1 ∈ liveInodes img₂ := by
    rw [liveInodes, List.mem_filter, List.mem_range, hof.inodeMapAddr, inodeBits, hof.startDataMap,
      hof.startInodeMap]
    exact ⟨by decide, hlive⟩
  have hmarked := (howns.marked 2 (by decide)).mpr
    (List.mem_flatMap.mpr ⟨1, hmem, by rw [hblocks]; exact List.mem_singleton_self _⟩)
  rw [hof.dataMapAddr, hdata] at hmarked
  cases hmarked

end UoftOs.FileSystem
