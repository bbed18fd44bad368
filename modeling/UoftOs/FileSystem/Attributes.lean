import UoftOs.FileSystem.Namespace

/-!
# Attributes

What `a1fs_getattr` reports after a run of safe calls. A directory has as many links as it
lists names and 256 bytes for each, a file has one link and at most one block, and no two
paths have an inode number in common.
-/

namespace UoftOs.FileSystem

open Lib.ByteMemory Lib.NamedTree Lib.Transition

/-- The attributes of a directory that lists the names. -/
def Stat.OfDirectory (st : Stat) (names : List Name) : Prop :=
  st.nlink = names.length ∧ st.size = 256 * names.length ∧ st.blocks = 8

/-- The attributes of a file without a block or with one. -/
def Stat.OfFile (st : Stat) : Prop :=
  st.nlink = 1 ∧ ((st.size = 0 ∧ st.blocks = 0) ∨ (st.size ≤ 4096 ∧ st.blocks = 8))

/-- The attributes that belong to the paths. -/
structure AttributesRight (img : Image) : Prop where
  directory : ∀ cs st, ValidPath cs → a1fsGetattr img (render cs) = .ok (0, st) → sIsDir st.mode →
    ∃ names, a1fsReaddir img (render cs) = .ok (0, names) ∧ st.OfDirectory names
  file : ∀ cs st, ValidPath cs → a1fsGetattr img (render cs) = .ok (0, st) → ¬ sIsDir st.mode →
    st.OfFile
  ino : ∀ cs cs' st st', ValidPath cs → ValidPath cs' → a1fsGetattr img (render cs) = .ok (0, st) →
    a1fsGetattr img (render cs') = .ok (0, st') → st.ino = st'.ino → cs = cs'

/-- Files have one link. -/
def Nodes.FileLinks (nodes : Nodes) : Prop :=
  ∀ i nd, nodes i = some nd → ¬ sIsDir nd.mode → nd.links = 1

variable {L : Layout} {img img' : Image} {nodes nodes' : Nodes} {nd : Node} {i size n : Nat}
  {cs : List Name} {st : Stat} {calls : List Call} {c : Call} {r : Int}

/-! ## The links of files -/

theorem freshNodes_fileLinks : freshNodes.FileLinks := by
  intro i nd hnd hfile
  obtain ⟨_, rfl⟩ := freshNodes_eq hnd
  exact absurd (by decide) hfile

/-- Safe calls give a file one link and leave it so. -/
theorem Nodes.FileLinks.step (hone : nodes.FileLinks) (hstep : NodeStep L nodes c r nodes') :
    nodes'.FileLinks := by
  have hunlinked : ∀ {t p pn i rest}, OldEntry nodes t p pn i rest →
      (nodes.unlinked p pn rest i).FileLinks := by
    intro t p pn i rest hold j nd hnd hfile
    rcases Nodes.unlinked_cases hnd with ⟨_, ⟨rfl, rfl⟩ | ⟨_, hsame⟩⟩
    · exact absurd hold.directory hfile
    · exact hone j nd hsame hfile
  have hupdated : ∀ {i nd new}, nodes i = some nd → ¬ sIsDir nd.mode → new.links = nd.links →
      (nodes.updated i new).FileLinks := by
    intro i nd new hnd hfile hlinks j nd' hnd' hfile'
    rcases Nodes.updated_cases hnd' with ⟨_, rfl⟩ | ⟨_, hsame⟩
    · exact hlinks.trans (hone i nd hnd hfile)
    · exact hone j nd' hsame hfile'
  cases hstep with
  | mkdirRefused => exact hone
  | mkdir hnew _ hdir =>
      intro j nd hnd hfile
      rcases Nodes.linked_cases hnd with ⟨_, rfl⟩ | ⟨_, rfl, rfl⟩ | ⟨_, _, hsame⟩
      · exact absurd hdir hfile
      · exact absurd hnew.directory hfile
      · exact hone j nd hsame hfile
  | createRefused => exact hone
  | create hnew _ _ =>
      intro j nd hnd hfile
      rcases Nodes.linked_cases hnd with ⟨_, rfl⟩ | ⟨_, rfl, rfl⟩ | ⟨_, _, hsame⟩
      · rfl
      · exact absurd hnew.directory hfile
      · exact hone j nd hsame hfile
  | rmdirRefused => exact hone
  | rmdir hold _ _ => exact hunlinked hold
  | unlink hold _ _ => exact hunlinked hold
  | write _ hnd hfile _ hlinks _ => exact hupdated hnd hfile hlinks
  | truncate _ hnd hfile _ hlinks _ => exact hupdated hnd hfile hlinks

/-- Runs of safe calls keep an invariant of the nodes that every step keeps. -/
theorem SafeRun.invariant {I : Nodes → Prop} (hfresh : FreshImage img size n)
    (run : SafeRun img calls img') (hinit : I freshNodes)
    (hstep : ∀ nodes nodes' c r, I nodes →
      NodeStep (formatLayout size n hfresh.inodes_pos hfresh.fits.1) nodes c r nodes' → I nodes') :
    ∃ nodes, Consistent (formatLayout size n hfresh.inodes_pos hfresh.fits.1) img' nodes ∧
      I nodes := by
  refine Run.state_invariant (I := fun img' => ∃ nodes, Consistent _ img' nodes ∧ I nodes)
    ⟨freshNodes, hfresh.consistent, hinit⟩ ?_ run
  rintro img₁ c img₂ ⟨nodes, h, hI⟩ ⟨⟨hallowed, r, hrun⟩, hsafe⟩
  obtain ⟨nodes', h', hnodes⟩ := h.nodeStep hallowed hsafe hrun
  exact ⟨nodes', h', hstep nodes nodes' c r hI hnodes⟩

/-! ## What `a1fs_getattr` reports -/

/-- The blocks of an inode with at most one extent. -/
theorem Node.Small.blockCount (hsmall : nd.Small L i) (hat : nd.At L img i) :
    (List.range (extentCount img (L.recordAt i)).toNat).foldl
      (fun count (k : Nat) => int32 (count + extentLength img (L.extentAt i) k)) 0 =
        (nd.extents.length : Int) := by
  rw [hat.count, Int.toNat_natCast]
  rcases hsmall.extents with hnil | ⟨b, hone, _, _⟩
  · rw [hnil]
    rfl
  · have hlength := (hat.extents 0 (by rw [hone]; exact Nat.one_pos)).2
    simp only [hone, List.getElem_cons_zero] at hlength
    rw [hone, List.length_singleton, List.range_one, List.foldl_cons, List.foldl_nil, hlength]
    rfl

namespace Consistent

variable (h : Consistent L img nodes)
include h

/-- The attributes of a path are those of its node. -/
theorem getattr_eq (hcs : ValidPath cs) (hst : a1fsGetattr img (render cs) = .ok (0, st)) :
    ∃ (i : Nat) (nd : Node), nodes.resolve cs = i ∧ nodes i = some nd ∧
      st = ⟨i, nd.mode, nd.links, nd.size, 8 * nd.extents.length⟩ := by
  obtain ⟨i, nd, hi, hnd, _⟩ := getattr_found h.hold h.tree.closed hcs.component hcs.2 hst
  have hsmall := h.tree.small i nd hnd
  have hat := h.hold.nodeAt i nd hnd
  have hlen := hcs.2
  have hpath := h.pathInode_eq hcs
  have hneg : (i : Int) ≠ -enoent ∧ (i : Int) ≠ -enotdir := by
    unfold enoent enotdir
    omega
  refine ⟨i, nd, hi, hnd, ?_⟩
  rw [a1fsGetattr, if_neg (by omega), hpath, hi, ok_bind, if_neg hneg.1, if_neg hneg.2,
    if_pos (Int.natCast_nonneg i), h.of.inodeAddr hsmall.inode_lt.le,
    h.of.extentAddr hsmall.inode_lt.le] at hst
  have hone : nd.extents.length ≤ 1 := by
    rcases hsmall.extents with hnil | ⟨b, hext, _, _⟩
    · simp [hnil]
    · simp [hext]
  have hblocks : (int32 ((nd.extents.length : Int) * 4096)).tdiv 512 = 8 * nd.extents.length := by
    rw [int32_of_bounds (by omega) (by omega), Int.tdiv_eq_ediv_of_nonneg (by omega)]
    omega
  simp only [hsmall.blockCount hat, hat.mode, hat.links, hat.size, hblocks] at hst
  exact (Prod.mk.inj (Except.ok.inj hst)).2.symm

/-- A consistent image whose files have one link reports the right attributes. -/
theorem attributesRight (hone : nodes.FileLinks) : AttributesRight img where
  directory := by
    intro cs st hcs hst hdir
    obtain ⟨i, nd, hi, hnd, rfl⟩ := h.getattr_eq hcs hst
    obtain ⟨p, hat, _⟩ := h.tree.directory i nd hnd hdir
    obtain ⟨b, hext, _, _⟩ := h.tree.exists_block hnd hdir
    refine ⟨_, h.readdir hcs.component hcs.2 hi hnd hdir, ?_, ?_, ?_⟩
    · rw [List.length_map, ← hat.links]
    · rw [List.length_map, ← hat.size]
    · simp [hext]
  file := by
    intro cs st hcs hst hfile
    obtain ⟨i, nd, hi, hnd, rfl⟩ := h.getattr_eq hcs hst
    have hsmall := h.tree.small i nd hnd
    have hle := hsmall.size_le
    refine ⟨hone i nd hnd hfile, ?_⟩
    rcases hsmall.extents with hnil | ⟨b, hext, _, _⟩
    · rw [hnil, List.length_nil] at hle
      exact .inl ⟨by simpa using hle, by simp [hnil]⟩
    · rw [hext, List.length_singleton] at hle
      exact .inr ⟨by simpa using hle, by simp [hext]⟩
  ino := by
    intro cs cs' st st' hcs hcs' hst hst' hino
    obtain ⟨i, nd, hi, _, rfl⟩ := h.getattr_eq hcs hst
    obtain ⟨j, nd', hj, _, rfl⟩ := h.getattr_eq hcs' hst'
    obtain rfl : i = j := Int.ofNat_inj.mp hino
    rw [h.tree.resolve_iff hcs.ne_dots] at hi
    rw [h.tree.resolve_iff hcs'.ne_dots] at hj
    exact h.tree.passTree.walk_unique hi hj

end Consistent

/-- After every run of safe calls `a1fs_getattr` reports the right attributes. -/
theorem attributes_right (hfresh : FreshImage img size n) (run : SafeRun img calls img') :
    AttributesRight img' := by
  obtain ⟨nodes, h, hone⟩ := run.invariant hfresh freshNodes_fileLinks fun _ _ _ _ hone hstep =>
    hone.step hstep
  exact h.attributesRight hone

theorem attributes_right_file : ∃ img', SafeRun smallImage [createFile] img' ∧
    AttributesRight img' := by
  obtain ⟨img', _, run, _⟩ := createFile_run
  exact ⟨img', run, attributes_right smallImage_fresh run⟩

end UoftOs.FileSystem
