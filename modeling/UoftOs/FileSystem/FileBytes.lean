import UoftOs.FileSystem.Ownership

/-!
# Files after a truncation or a write

A file that safe calls make has one block, which holds its logical bytes.
`a1fs_truncate` and every later `a1fs_write` store in the block behind it, so the file
keeps the bytes of its first write.
-/

namespace UoftOs.FileSystem

open Lib.ByteMemory Lib.NamedTree Lib.Transition

/-- The file of inode `i` is cut or extended to `newSize`. -/
structure Resizes (img img' : Image) (i newSize : Nat) : Prop where
  size : inodeSize img' (inodeAddr img' i) = newSize
  blocks : (blocksOf img' i).length = (newSize + 4095) / 4096
  common : ∀ k < min (blocksOf img i).length (blocksOf img' i).length,
    (blocksOf img' i)[k]? = (blocksOf img i)[k]?
  kept : ∀ q < min (inodeSize img (inodeAddr img i)) newSize, fileByte img' i q = fileByte img i q
  zeros : ∀ q, inodeSize img (inodeAddr img i) ≤ q → q < newSize → fileByte img' i q = 0

/-- The file is not cut to nothing, and the bytes that are added are zero already. -/
def HoldsSize (img : Image) (i newSize : Nat) : Prop :=
  newSize ≠ 0 ∧ ∀ q, inodeSize img (inodeAddr img i) ≤ q → q < newSize → fileByte img i q = 0

/-- A write to inode `i` is read back and changes no other byte of the file. -/
structure WritesBack (img img' : Image) (path : Path) (i : Nat) (buf : List UInt8) (offset : Nat) :
    Prop where
  read : a1fsRead img' path buf.length offset = .ok ((buf.length : Nat), buf)
  kept : ∀ q < inodeSize img (inodeAddr img i), q < offset ∨ offset + buf.length ≤ q →
    fileByte img' i q = fileByte img i q
  gap : ∀ q, inodeSize img (inodeAddr img i) ≤ q → q < offset → fileByte img' i q = 0
  size : inodeSize img' (inodeAddr img' i) =
    max (inodeSize img (inodeAddr img i)) (offset + buf.length)

/-- The file has no block yet, or it holds what is written already and the write does not
start behind its end, unless it is empty. -/
def HoldsWritten (img : Image) (i : Nat) (buf : List UInt8) (offset : Nat) : Prop :=
  extentCount img (inodeAddr img i) = 0 ∨
    ((inodeSize img (inodeAddr img i) = 0 ∨ offset ≤ inodeSize img (inodeAddr img i)) ∧
      (∀ k (hk : k < buf.length), fileByte img i (offset + k) = buf[k]) ∧
      ∀ q, inodeSize img (inodeAddr img i) ≤ q → q < offset → fileByte img i q = 0)

variable {L : Layout} {img img' img₁ img₂ : Image} {nodes nodes' : Nodes} {nd new : Node}
  {i b q size newSize n offset len : Nat} {calls : List Call} {t : Target} {buf : List UInt8}

/-! ## Other contents of a node -/

namespace Nodes

variable (hnd : nodes i = some nd)
include hnd

theorem lookup_updated (hentries : new.entries = nd.entries) {j : Nat} {name : Name} :
    (nodes.updated i new).lookup j name = nodes.lookup j name := by
  have hsame : (nodes.updated i new).entriesOf j = nodes.entriesOf j := by
    by_cases hj : j = i
    · rw [hj, entriesOf, entriesOf, updated_self, hnd]
      exact hentries
    · rw [entriesOf, entriesOf, updated_other hj]
  rw [lookup, lookup, hsame]

theorem passable_updated (hmode : new.mode = nd.mode) {j : Nat} :
    (nodes.updated i new).passable j = nodes.passable j := by
  by_cases hj : j = i
  · rw [hj, passable, passable, updated_self, hnd]
    simp only [hmode]
  · rw [passable, passable, updated_other hj]

variable (hmode : new.mode = nd.mode) (hentries : new.entries = nd.entries)
include hmode hentries

theorem resolveFrom_updated {j : Nat} {name : Name} {cs : List Name} :
    (nodes.updated i new).resolveFrom j name cs = nodes.resolveFrom j name cs := by
  induction cs generalizing j name with
  | nil => rw [resolveFrom, resolveFrom, lookup_updated hnd hentries]
  | cons next cs ih =>
      rw [resolveFrom, resolveFrom, lookup_updated hnd hentries]
      simp only [passable_updated hnd hmode, ih]

/-- Sizes and extents do not matter to paths. -/
theorem resolve_updated {cs : List Name} : (nodes.updated i new).resolve cs = nodes.resolve cs := by
  cases cs with
  | nil => rfl
  | cons name cs => exact resolveFrom_updated hnd hmode hentries

end Nodes

/-! ## Files of one block -/

theorem Layout.blockAt_succ (L : Layout) (b : Nat) : L.blockAt (b + 1) = L.blockAt b + 4096 := by
  unfold blockAt
  omega

theorem bytesAt_eq_iff {m : Memory} {a : Int} :
    bytesAt m a buf.length = buf ↔ ∀ k (hk : k < buf.length), m (a + (k : Nat)) = buf[k] := by
  constructor
  · intro h k hk
    have hget : (bytesAt m a buf.length)[k]? = buf[k]? := by rw [h]
    rw [List.getElem?_eq_getElem (by rw [length_bytesAt]; exact hk), List.getElem?_eq_getElem hk,
      getElem_bytesAt] at hget
    exact Option.some.inj hget
  · intro h
    refine List.ext_getElem length_bytesAt fun k _ hk => ?_
    rw [getElem_bytesAt, h k hk]

namespace Consistent

variable (h : Consistent L img nodes)
include h

theorem size_eq (hnd : nodes i = some nd) : inodeSize img (inodeAddr img i) = nd.size := by
  rw [h.of.inodeAddr (h.tree.small i nd hnd).inode_lt.le, (h.hold.nodeAt i nd hnd).size]

theorem count_eq (hnd : nodes i = some nd) :
    extentCount img (inodeAddr img i) = nd.extents.length := by
  rw [h.of.inodeAddr (h.tree.small i nd hnd).inode_lt.le, (h.hold.nodeAt i nd hnd).count]

variable (hnd : nodes i = some nd) (hext : nd.extents = [(b, 1)])
include hnd hext

theorem blocksOf_one : blocksOf img i = [(b : Int)] := by
  rw [h.blocksOf_eq hnd, hext]
  rfl

theorem block_lt : L.data + b < 524288 := by
  have he : (b, 1) ∈ nd.extents := by
    rw [hext]
    exact List.mem_singleton_self _
  have hmem := (h.tree.small i nd hnd).mem_extents he
  have hlast := h.tree.last_lt
  omega

/-- The logical bytes stand in the block. -/
theorem fileByte_eq (hq : q < 4096) : fileByte img i q = img (L.blockAt b + q) := by
  rw [fileByte, h.blocksOf_one hnd hext, Nat.div_eq_of_lt hq, Nat.mod_eq_of_lt hq,
    List.getD_cons_zero, h.of.dataAddr (h.block_lt hnd hext)]

/-- `a1fs_read` of the one block. -/
theorem read_one (hi : nodes.resolve (t.dirs ++ [t.name]) = (i : Int)) (hle : offset ≤ nd.size)
    (hfits : offset + len ≤ 4096) :
    a1fsRead img t.path len offset = .ok ((len : Nat), bytesAt img (L.blockAt b + offset) len) := by
  have hsmall := h.tree.small i nd hnd
  have hlt := hsmall.inode_lt
  have hat := h.hold.nodeAt i nd hnd
  have hsize := hsmall.size_le
  rw [hext, List.length_singleton] at hsize
  have hstart : extentStart img (L.extentAt i) (0 : Nat) = b := by
    have hpos : 0 < nd.extents.length := by
      rw [hext]
      exact Nat.one_pos
    have hfirst := (hat.extents 0 hpos).1
    simpa only [hext, List.getElem_cons_zero] using hfirst
  have hcount : extentCount img (L.recordAt i) = 1 := by
    rw [hat.count, hext]
    rfl
  have hb := h.block_lt hnd hext
  have hread : ∀ front, readExtent img (L.extentAt i) front [0] 0 none = some (b : Int) := by
    intro front
    rw [readExtent]
    simp only [hstart, int32_natCast (show b < 2147483648 by omega)]
    rw [readExtent, ite_self]
  rw [a1fsRead, WellFormed.pathInode_target h.wellFormed hi, ok_bind]
  simp only [h.of.inodeAddr hlt.le, h.of.extentAddr hlt.le, hat.size, hcount, Int.toNat_one,
    List.range_one, hread, Option.elim_some]
  rw [int32_natCast (show nd.size < 2147483648 by omega), if_neg (by omega),
    int32_natCast (show len < 2147483648 by omega), h.of.dataAddr hb]
  rcases Nat.lt_or_ge offset 4096 with hlt | hge
  · rw [Nat.mod_eq_of_lt hlt]
  · obtain rfl : len = 0 := by omega
    rfl

end Consistent

/-! ## Truncation -/

namespace Consistent

variable (h : Consistent L img nodes)
include h

/-- A file that keeps its block and the bytes in it. -/
theorem resizes_iff (hnd : nodes i = some nd) (hext : nd.extents = [(b, 1)])
    (h' : Consistent L img' (nodes.updated i { nd with size := size }))
    (hblock : AgreeOn img' img (L.blockAt b) (L.blockAt b + 4096)) :
    Resizes img img' i size ↔ HoldsSize img i size := by
  have hnd' : nodes.updated i { nd with size := size } i = some { nd with size := size } :=
    Nodes.updated_self
  have hold := (h.tree.small i nd hnd).size_le
  have hnew := (h'.tree.small i _ hnd').size_le
  simp only [hext, List.length_singleton] at hold hnew
  have hbyte : ∀ q < 4096, fileByte img' i q = fileByte img i q := by
    intro q hq
    rw [h'.fileByte_eq hnd' hext hq, h.fileByte_eq hnd hext hq]
    exact hblock _ (by omega) (by omega)
  have hblocks : blocksOf img i = [(b : Int)] := h.blocksOf_one hnd hext
  have hblocks' : blocksOf img' i = [(b : Int)] := h'.blocksOf_one hnd' hext
  rw [HoldsSize, h.size_eq hnd]
  constructor
  · intro hres
    have hcount := hres.blocks
    rw [hblocks', List.length_singleton] at hcount
    refine ⟨by omega, fun q hlo hhi => ?_⟩
    rw [← hbyte q (by omega)]
    exact hres.zeros q (by rw [h.size_eq hnd]; exact hlo) hhi
  · rintro ⟨hne, hzeros⟩
    constructor
    case size => exact h'.size_eq hnd'
    case blocks =>
        rw [hblocks', List.length_singleton]
        omega
    case common =>
        intro k _
        rw [hblocks', hblocks]
    case kept =>
        intro q hq
        exact hbyte q (by omega)
    case zeros =>
        intro q hlo hhi
        rw [h.size_eq hnd] at hlo
        rw [hbyte q (by omega)]
        exact hzeros q hlo hhi

/-- A safe truncation resizes the file exactly under the condition. -/
theorem truncate_resizes (hc : (Call.truncate t size).Allowed img)
    (hsafe : (Call.truncate t size).Safe img) :
    ∃ (i : Nat) (img' : Image), pathInode img t.path = .ok (i : Int) ∧
      (Call.truncate t size).run img = .ok (0, img') ∧
      (Resizes img img' i size ↔ HoldsSize img i size) := by
  obtain ⟨i, nd, b, img', hi, hnd, _, hext, hrun, hcases⟩ := h.truncate_safe hc hsafe
  have hlt := (h.tree.small i nd hnd).inode_lt
  have hrecord := L.recordAt_lt hlt
  have hextent := L.extentAt_lt hlt
  have hdata := L.blockAt_ge_data b
  have htable := L.extents_lt
  have hroom := L.extentBlocks
  have hext' : L.extentAt i = 4096 * (L.extents + i) := rfl
  refine ⟨i, img', WellFormed.pathInode_target h.wellFormed hi, hrun, ?_⟩
  rcases hcases with ⟨_, _, _, _, hstored, h'⟩ | ⟨rfl, hsame, h', hkeeps⟩
  · refine h.resizes_iff hnd hext h' fun x hlo hhi => ?_
    have hbehind := L.blockAt_succ b
    rw [hstored.keeps x (by omega) (by omega), chargedBlocks_apply (L := L) (by omega)]
  · have hself : ({ nd with size := 4096 } : Node) = nd := by rw [← hsame]
    refine h.resizes_iff hnd hext (by rwa [hself]) fun x hlo hhi => ?_
    rw [hkeeps x (by omega) (by omega), chargedBlocks_apply (L := L) (by omega)]

end Consistent

/-! ## Writing -/

namespace Consistent

variable (h : Consistent L img nodes) (hnd : nodes i = some nd)
include h hnd

/-- The first write of a file, from the block that it gets. -/
theorem writesBack_first
    (hpath : (nodes.updated i new).resolve (t.dirs ++ [t.name]) = (i : Int))
    (hext : nd.extents = []) (hnew : new.extents = [(b, 1)])
    (hsize : new.size = writtenSize nd.size offset buf.length)
    (h' : Consistent L img' (nodes.updated i new))
    (hwritten : BlockWritten L img' img₁ b nd.size offset buf) :
    WritesBack img img' t.path i buf offset := by
  have hnd' : nodes.updated i new i = some new := Nodes.updated_self
  have hold := (h.tree.small i nd hnd).size_le
  have hle := (h'.tree.small i new hnd').size_le
  rw [hext, List.length_nil] at hold
  rw [hnew, List.length_singleton, hsize] at hle
  have hzero : nd.size = 0 := by omega
  have hsum : writtenSize nd.size offset buf.length = offset + buf.length := by
    rw [hzero, writtenSize]
    split <;> omega
  constructor
  case read =>
      rw [h'.read_one hnd' hnew hpath (by omega) (by omega), hwritten.written]
  case kept =>
      intro q hq
      rw [h.size_eq hnd] at hq
      omega
  case gap =>
      intro q hlo hhi
      rw [h.size_eq hnd] at hlo
      rw [h'.fileByte_eq hnd' hnew (by omega)]
      exact hwritten.gap _ (by omega) (by omega)
  case size =>
      rw [h'.size_eq hnd', h.size_eq hnd]
      omega

/-- A later write, which is stored behind the file. -/
theorem writesBack_iff (hext : nd.extents = [(b, 1)])
    (hpath : (nodes.updated i
      { nd with size := writtenSize nd.size offset buf.length }).resolve
        (t.dirs ++ [t.name]) = (i : Int))
    (h' : Consistent L img' (nodes.updated i
      { nd with size := writtenSize nd.size offset buf.length }))
    (hblock : AgreeOn img' img (L.blockAt b) (L.blockAt b + 4096)) :
    WritesBack img img' t.path i buf offset ↔ HoldsWritten img i buf offset := by
  have hnd' : nodes.updated i { nd with size := writtenSize nd.size offset buf.length } i =
      some { nd with size := writtenSize nd.size offset buf.length } := Nodes.updated_self
  have hold := (h.tree.small i nd hnd).size_le
  have hnew := (h'.tree.small i _ hnd').size_le
  simp only [hext, List.length_singleton] at hold hnew
  have hfits : offset ≤ writtenSize nd.size offset buf.length ∧ offset + buf.length ≤ 4096 := by
    unfold writtenSize at hnew ⊢
    split
    · rename_i hlt
      rw [if_pos hlt] at hnew
      omega
    · rename_i hge
      rw [if_neg hge] at hnew
      omega
  have hbyte : ∀ q < 4096, fileByte img' i q = fileByte img i q := by
    intro q hq
    rw [h'.fileByte_eq hnd' hext hq, h.fileByte_eq hnd hext hq]
    exact hblock _ (by omega) (by omega)
  have hread : a1fsRead img' t.path buf.length offset = .ok ((buf.length : Nat), buf) ↔
      ∀ k (hk : k < buf.length), fileByte img i (offset + k) = buf[k] := by
    rw [h'.read_one hnd' hext hpath hfits.1 hfits.2, Except.ok.injEq, Prod.mk.injEq,
      and_iff_right rfl, bytesAt_eq_iff]
    refine forall_congr' fun k => forall_congr' fun hk => ?_
    rw [← hbyte _ (by omega), h'.fileByte_eq hnd' hext (by omega), Int.natCast_add, Int.add_assoc]
  have hsize : inodeSize img' (inodeAddr img' i) = max nd.size (offset + buf.length) ↔
      nd.size = 0 ∨ offset ≤ nd.size := by
    rw [h'.size_eq hnd']
    dsimp only
    unfold writtenSize
    split <;> omega
  have hcount : extentCount img (inodeAddr img i) ≠ 0 := by
    rw [h.count_eq hnd, hext, List.length_singleton]
    decide
  rw [HoldsWritten, h.size_eq hnd, or_iff_right hcount]
  constructor
  · intro hback
    have hmax := hback.size
    rw [h.size_eq hnd] at hmax
    refine ⟨hsize.mp hmax, hread.mp hback.read, fun q hlo hhi => ?_⟩
    rw [← hbyte q (by omega)]
    exact hback.gap q (by rw [h.size_eq hnd]; exact hlo) hhi
  · rintro ⟨hmax, hbytes, hgap⟩
    constructor
    case read => exact hread.mpr hbytes
    case kept =>
        intro q hq _
        rw [h.size_eq hnd] at hq
        exact hbyte q (by omega)
    case gap =>
        intro q hlo hhi
        rw [h.size_eq hnd] at hlo
        rw [hbyte q (by omega)]
        exact hgap q hlo hhi
    case size =>
        rw [h.size_eq hnd]
        exact hsize.mpr hmax

omit hnd in
/-- A safe write is read back exactly under the condition. -/
theorem write_reads_back (hc : (Call.write t buf offset).Allowed img)
    (hsafe : (Call.write t buf offset).Safe img) :
    ∃ (i : Nat) (img' : Image), pathInode img t.path = .ok (i : Int) ∧
      (Call.write t buf offset).run img = .ok ((buf.length : Nat), img') ∧
      (WritesBack img img' t.path i buf offset ↔ HoldsWritten img i buf offset) := by
  obtain ⟨i, nd, b, img₁, img', hi, hnd, hfile, hrun, hstored, hwritten, hcases⟩ :=
    h.write_safe hc hsafe
  have hlt := (h.tree.small i nd hnd).inode_lt
  have hrecord := L.recordAt_lt hlt
  have hroom := L.extentBlocks
  refine ⟨i, img', WellFormed.pathInode_target h.wellFormed hi, hrun, ?_⟩
  rcases hcases with ⟨hext, _, _, _, _, h'⟩ | ⟨c, hext, rfl, _, rfl, h'⟩
  · have hpath : (nodes.updated i { nd with
        extents := [(b, 1)], size := writtenSize nd.size offset buf.length }).resolve
          (t.dirs ++ [t.name]) = (i : Int) := (Nodes.resolve_updated hnd (by rfl) (by rfl)).trans hi
    refine iff_of_true (h.writesBack_first hnd hpath hext rfl rfl h' hwritten) (.inl ?_)
    rw [h.count_eq hnd, hext]
    rfl
  · have hpath : (nodes.updated i { nd with
        size := writtenSize nd.size offset buf.length }).resolve
          (t.dirs ++ [t.name]) = (i : Int) := (Nodes.resolve_updated hnd (by rfl) (by rfl)).trans hi
    have hdata := L.blockAt_ge_data c
    have hbehind := L.blockAt_succ c
    exact h.writesBack_iff hnd hext hpath h' fun x hlo hhi =>
      hstored.keeps x (by omega) (by omega)

end Consistent

/-! ## Runs -/

/-- Over runs of safe calls a safe truncation resizes the file exactly when it keeps a
block and adds nothing but zeros. -/
theorem truncate_resizes_iff (hfresh : FreshImage img size n) (run : SafeRun img calls img₁)
    (hc : (Call.truncate t newSize).Allowed img₁) (hsafe : (Call.truncate t newSize).Safe img₁) :
    ∃ (i : Nat) (img₂ : Image), pathInode img₁ t.path = .ok (i : Int) ∧
      (Call.truncate t newSize).run img₁ = .ok (0, img₂) ∧
      (Resizes img₁ img₂ i newSize ↔ HoldsSize img₁ i newSize) := by
  obtain ⟨nodes, h⟩ := run.consistent hfresh
  exact h.truncate_resizes hc hsafe

/-- The file `"/f"` with `len` bytes in block 1. -/
def writtenNodes (len : Nat) : Nodes :=
  fileNodes.updated 1 { Node.emptyFile 0o100644 with extents := [(1, 1)], size := len }

theorem writtenNodes_file : writtenNodes len 1 =
    some { Node.emptyFile 0o100644 with extents := [(1, 1)], size := len } := Nodes.updated_self

theorem writtenNodes_count (h : Consistent L img (writtenNodes len)) :
    extentCount img (inodeAddr img (1 : Nat)) = 1 := h.count_eq writtenNodes_file

theorem writtenNodes_resolve :
    (writtenNodes len).resolve (fileTarget.dirs ++ [fileTarget.name]) = ((1 : Nat) : Int) :=
  (Nodes.resolve_updated (show fileNodes 1 = some (Node.emptyFile 0o100644) from rfl) rfl rfl).trans
    fileNodes_resolve

/-- The first write of the first file. -/
theorem writtenFile_run (hfits : buf.length ≤ 4096) :
    ∃ img, SafeRun smallImage [createFile, .write fileTarget buf 0] img ∧
      Consistent smallLayout img (writtenNodes buf.length) ∧
      bytesAt img (smallLayout.blockAt 1) buf.length = buf := by
  obtain ⟨img₁, _, run, h⟩ := createFile_run
  obtain ⟨hallowed, hsafe⟩ : (Call.write fileTarget buf 0).Allowed img₁ ∧
      (Call.write fileTarget buf 0).Safe img₁ := h.fileNodes_write (by omega)
  obtain ⟨i, nd, b, _, img₂, hi, hnd, _, hrun, _, hwritten, hcases⟩ := h.write_safe hallowed hsafe
  obtain rfl : i = 1 := Int.ofNat_inj.mp (hi.symm.trans fileNodes_resolve)
  cases hnd
  rcases hcases with ⟨_, hleast, _, _, _, h'⟩ | ⟨c, hext, _⟩
  · obtain rfl := hleast.unique h.fileNodes_leastClear
    have hsize : writtenSize (Node.emptyFile 0o100644).size 0 buf.length = buf.length := by
      rw [writtenSize, if_neg (Nat.not_lt_zero _), Nat.zero_add]
      exact Nat.max_eq_right (Nat.zero_le _)
    have hbytes := hwritten.written
    rw [hsize] at h'
    rw [Int.natCast_zero, Int.add_zero] at hbytes
    exact ⟨img₂, run.snoc ⟨⟨hallowed, _, hrun⟩, hsafe⟩, h', hbytes⟩
  · cases hext

namespace Consistent

variable (h : Consistent smallLayout img (writtenNodes len))
include h

theorem writtenNodes_isFile : IsFile img fileTarget.path :=
  isFile_of_resolve h.hold h.tree.closed fileTarget.component fileTarget.length_lt
    writtenNodes_resolve writtenNodes_file (show ¬ sIsDir 0o100644 by decide)

/-- Behind the file stands a free block. -/
theorem writtenNodes_clearBehind : ClearBehind img (1 : Nat) := by
  refine ⟨2, h.behind_one writtenNodes_file rfl, ?_, ?_⟩
  · rw [h.of.blocksCount]
    decide
  · rw [h.inDirectory_iff]
    rintro ⟨j, nd, hnd, hdir, he⟩
    rcases Nodes.updated_cases hnd with ⟨_, rfl⟩ | ⟨_, hold⟩
    · exact absurd hdir (show ¬ sIsDir 0o100644 by decide)
    · exact absurd (mem_fileNodes_extents hold he) (by decide)

/-- A truncation to fewer bytes is allowed and safe. -/
theorem writtenNodes_truncate (hlt : newSize < len) (hlen : len < 4096) :
    (Call.truncate fileTarget newSize).Allowed img ∧ (Call.truncate fileTarget newSize).Safe img := by
  have hpath := WellFormed.pathInode_target h.wellFormed writtenNodes_resolve
  refine ⟨⟨h.writtenNodes_isFile, by omega⟩, ?_⟩
  rw [Call.Safe, leads_iff hpath, writtenNodes_count h, h.size_eq writtenNodes_file,
    if_neg (show newSize ≠ len by omega)]
  have hneg : int32 ((newSize : Int) - (len % 4096 : Nat)) = -((len - newSize : Nat) : Int) := by
    rw [Nat.mod_eq_of_lt hlen, int32_of_bounds (by omega) (by omega)]
    omega
  refine ⟨one_ne_zero, by omega, ?_, h.writtenNodes_clearBehind⟩
  show (int32 ((newSize : Int) - (len % 4096 : Nat))).tdiv 4096 ≤ 0
  rw [hneg, Int.neg_tdiv]
  exact Int.neg_nonpos_of_nonneg (Int.tdiv_nonneg (Int.natCast_nonneg _) (by decide))

/-- A write within the block is allowed and safe. -/
theorem writtenNodes_write (hle : offset ≤ len) (hlen : len ≤ 4096)
    (hfits : offset + buf.length ≤ 4096) :
    (Call.write fileTarget buf offset).Allowed img ∧ (Call.write fileTarget buf offset).Safe img := by
  have hpath := WellFormed.pathInode_target h.wellFormed writtenNodes_resolve
  refine ⟨⟨h.writtenNodes_isFile, by omega, by omega⟩, ?_⟩
  rw [Call.Safe, leads_iff hpath, writtenNodes_count h, h.size_eq writtenNodes_file,
    if_neg one_ne_zero]
  refine ⟨?_, h.writtenNodes_clearBehind⟩
  show writtenSize len offset buf.length ≤ 4096
  unfold writtenSize
  rw [if_neg (by omega)]
  omega

end Consistent

/-- A cut from two bytes to one. -/
theorem truncate_resizes_iff_shorter : ∃ img₁, SafeRun smallImage
      [createFile, .write fileTarget [1, 1] 0] img₁ ∧
    ∃ (i : Nat) (img₂ : Image), pathInode img₁ fileTarget.path = .ok (i : Int) ∧
      (Call.truncate fileTarget 1).run img₁ = .ok (0, img₂) ∧
      (Resizes img₁ img₂ i 1 ↔ HoldsSize img₁ i 1) := by
  obtain ⟨img₁, run, h, _⟩ := writtenFile_run (show [1, 1].length ≤ 4096 by decide)
  obtain ⟨hallowed, hsafe⟩ : (Call.truncate fileTarget 1).Allowed img₁ ∧
      (Call.truncate fileTarget 1).Safe img₁ := h.writtenNodes_truncate (by decide) (by decide)
  exact ⟨img₁, run, truncate_resizes_iff smallImage_fresh run hallowed hsafe⟩

/-- A file that is cut to nothing keeps its block. -/
theorem truncate_keeps_block :
    ¬ ∀ (img : Image) (size n : Nat) (calls : List Call) (img₁ img₂ : Image) (t : Target)
      (newSize i : Nat), FreshImage img size n → Run Performs img calls img₁ →
      (Call.truncate t newSize).Allowed img₁ → pathInode img₁ t.path = .ok (i : Int) →
      (Call.truncate t newSize).run img₁ = .ok (0, img₂) → Resizes img₁ img₂ i newSize := by
  intro hclaim
  obtain ⟨img₁, run, h, _⟩ := writtenFile_run (show [1, 1].length ≤ 4096 by decide)
  obtain ⟨hallowed, hsafe⟩ : (Call.truncate fileTarget 0).Allowed img₁ ∧
      (Call.truncate fileTarget 0).Safe img₁ := h.writtenNodes_truncate (by decide) (by decide)
  obtain ⟨i, img₂, hpath, hrun, hiff⟩ := h.truncate_resizes hallowed hsafe
  exact (hiff.mp (hclaim _ _ _ _ _ _ _ _ _ smallImage_fresh run.unguard hallowed hpath hrun)).1 rfl

/-- Over runs of safe calls a safe write is read back exactly when it is the first one of
the file, or changes nothing. -/
theorem write_reads_back_iff (hfresh : FreshImage img size n) (run : SafeRun img calls img₁)
    (hc : (Call.write t buf offset).Allowed img₁) (hsafe : (Call.write t buf offset).Safe img₁) :
    ∃ (i : Nat) (img₂ : Image), pathInode img₁ t.path = .ok (i : Int) ∧
      (Call.write t buf offset).run img₁ = .ok ((buf.length : Nat), img₂) ∧
      (WritesBack img₁ img₂ t.path i buf offset ↔ HoldsWritten img₁ i buf offset) := by
  obtain ⟨nodes, h⟩ := run.consistent hfresh
  exact h.write_reads_back hc hsafe

theorem write_reads_back_iff_first : ∃ img₁, SafeRun smallImage [createFile] img₁ ∧
    ∃ (i : Nat) (img₂ : Image), pathInode img₁ fileTarget.path = .ok (i : Int) ∧
      (Call.write fileTarget [7] 1).run img₁ = .ok (1, img₂) ∧
      (WritesBack img₁ img₂ fileTarget.path i [7] 1 ↔ HoldsWritten img₁ i [7] 1) := by
  obtain ⟨img₁, _, run, h⟩ := createFile_run
  obtain ⟨hallowed, hsafe⟩ : (Call.write fileTarget [7] 1).Allowed img₁ ∧
      (Call.write fileTarget [7] 1).Safe img₁ := h.fileNodes_write (by decide)
  exact ⟨img₁, run, write_reads_back_iff smallImage_fresh run hallowed hsafe⟩

/-- The second write of a byte is read back as the first one. -/
theorem second_write_lost :
    ¬ ∀ (img : Image) (size n : Nat) (calls : List Call) (img₁ img₂ : Image) (t : Target)
      (buf : List UInt8) (offset i : Nat) (r : Int), FreshImage img size n →
      Run Performs img calls img₁ → (Call.write t buf offset).Allowed img₁ →
      pathInode img₁ t.path = .ok (i : Int) →
      (Call.write t buf offset).run img₁ = .ok (r, img₂) → 0 ≤ r →
      r = buf.length ∧ WritesBack img₁ img₂ t.path i buf offset := by
  intro hclaim
  obtain ⟨img₁, run, h, hbytes⟩ := writtenFile_run (show [1].length ≤ 4096 by decide)
  obtain ⟨hallowed, hsafe⟩ : (Call.write fileTarget [2] 0).Allowed img₁ ∧
      (Call.write fileTarget [2] 0).Safe img₁ :=
    h.writtenNodes_write (by decide) (by decide) (by decide)
  obtain ⟨i, img₂, hpath, hrun, hiff⟩ := h.write_reads_back hallowed hsafe
  have hfile := WellFormed.pathInode_target h.wellFormed writtenNodes_resolve
  obtain rfl : i = 1 := Int.ofNat_inj.mp (Except.ok.inj (hpath.symm.trans hfile))
  have hback := (hclaim _ _ _ _ _ _ _ _ _ _ _ smallImage_fresh run.unguard hallowed hpath hrun
    (by decide)).2
  rcases hiff.mp hback with hnone | ⟨_, hholds, _⟩
  · rw [writtenNodes_count h] at hnone
    cases hnone
  · have hold := bytesAt_eq_iff.mp hbytes 0 (by decide)
    have hnew := hholds 0 (by decide)
    rw [h.fileByte_eq writtenNodes_file rfl (by decide)] at hnew
    exact absurd (hold.symm.trans hnew) (by decide)

end UoftOs.FileSystem
