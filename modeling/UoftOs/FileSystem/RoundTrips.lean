import UoftOs.FileSystem.Statfs

/-!
# Entries that are made and removed again

Directories and files that are made one in the other and removed in the opposite order
leave the image as it was to its users: every path leads where it led, with the same
attributes, every directory lists the same names, and both bitmaps are restored. Only
`free_blocks_count` is one lower for each directory.
-/

namespace UoftOs.FileSystem

open Lib.ByteMemory Lib.NamedTree Lib.Transition

/-- The call that removes what a call has made. -/
def Call.undo : Call → Call
  | .mkdir t _ stale => .rmdir t stale
  | .create t _ stale => .unlink t stale
  | c => c

/-- The calls whose entries can be removed again. `a1fs_unlink` works in the root. -/
def Call.Undoable : Call → Prop
  | .mkdir .. => True
  | .create t _ _ => t.dirs = []
  | _ => False

/-- The blocks that `free_blocks_count` misses when the entry is removed. -/
def Call.undoLoss : Call → Nat
  | .mkdir .. => 1
  | _ => 0

/-- The calls that remove what the calls have made, the last first. -/
def undoAll (calls : List Call) : List Call := calls.reverse.map Call.undo

/-- The calls with the answer 0. -/
def succeeded (calls : List Call) : List (Call × Int) := calls.map fun c => (c, 0)

/-- The image is as it was, apart from the bytes of free inodes and blocks and the order in
which directories list their entries. It has lost some free blocks. -/
structure Restores (img img' : Image) (lost : Nat) : Prop where
  paths : ∀ cs, ValidPath cs → pathInode img' (render cs) = pathInode img (render cs)
  attributes : ∀ cs, ValidPath cs → a1fsGetattr img' (render cs) = a1fsGetattr img (render cs)
  listed : ∀ cs names, ValidPath cs → IsDirectory img (render cs) →
    a1fsReaddir img (render cs) = .ok (0, names) →
      ∃ names', a1fsReaddir img' (render cs) = .ok (0, names') ∧ names'.Perm names
  inodeBits : ∀ i < inodeBits img,
    bitSet img' (inodeMapAddr img') i = bitSet img (inodeMapAddr img) i
  dataBits : ∀ b < 65536, bitSet img' (dataMapAddr img') b = bitSet img (dataMapAddr img) b
  freeInodes : freeInodesCount img' = freeInodesCount img
  freeBlocks : freeBlocksCount img' = uint32 (freeBlocksCount img - lost)

/-- The same node up to the order of its entries. -/
structure Node.Alike (nd' nd : Node) : Prop where
  mode : nd'.mode = nd.mode
  links : nd'.links = nd.links
  size : nd'.size = nd.size
  extents : nd'.extents = nd.extents
  entries : nd'.entries.Perm nd.entries

/-- The same nodes up to the order of their entries. -/
structure Nodes.Alike (nodes' nodes : Nodes) : Prop where
  free : ∀ i, nodes i = none → nodes' i = none
  node : ∀ i nd, nodes i = some nd → ∃ nd', nodes' i = some nd' ∧ nd'.Alike nd

variable {L : Layout} {img img' img₁ img₂ : Image} {nodes nodes' : Nodes} {nd nd' pn new : Node}
  {i j k p size n : Nat} {t : Target} {name : Name} {cs : List Name} {rest : List (Name × Nat)}
  {c : Call} {calls : List Call}

/-! ## Alike nodes -/

theorem Node.Alike.refl (nd : Node) : nd.Alike nd := ⟨rfl, rfl, rfl, rfl, .refl _⟩

theorem Nodes.Alike.refl (nodes : Nodes) : nodes.Alike nodes :=
  ⟨fun _ => id, fun _ nd hnd => ⟨nd, hnd, .refl nd⟩⟩

/-- The entries behind the first two are the entries with a valid name. -/
theorem Tree.edge_iff_entries (h : Tree L nodes) (hnd : nodes i = some nd) :
    nodes.Edge i name k ↔ (name, k) ∈ nd.entries ∧ name ≠ dot ∧ name ≠ dotDot := by
  rw [Nodes.edge_iff hnd]
  by_cases hdir : sIsDir nd.mode
  · obtain ⟨p, hat, _⟩ := h.directory i nd hnd hdir
    constructor
    · intro hmem
      have hvalid := (hat.names _ hmem).1
      exact ⟨Node.mem_children hmem, hvalid.ne_dot, hvalid.ne_dotDot⟩
    · rintro ⟨hmem, hname⟩
      exact (hat.mem_children_iff hname).mp hmem
  · have hnil := (h.small i nd hnd).file hdir
    simp [Node.children, hnil]

namespace Nodes.Alike

variable (halike : nodes'.Alike nodes)
include halike

theorem isSome_eq : (nodes' i).isSome = (nodes i).isSome := by
  cases hnd : nodes i with
  | none => rw [halike.free i hnd]
  | some nd =>
      obtain ⟨nd', hnd', _⟩ := halike.node i nd hnd
      rw [hnd']
      rfl

/-- The node that an alike node comes from. -/
theorem of_some (hnd' : nodes' i = some nd') : ∃ nd, nodes i = some nd ∧ nd'.Alike nd := by
  obtain ⟨nd, hnd⟩ := Option.isSome_iff_exists.mp
    (halike.isSome_eq.symm.trans (Option.isSome_iff_exists.mpr ⟨nd', hnd'⟩))
  obtain ⟨nd'', hnd'', hlike⟩ := halike.node i nd hnd
  cases hnd'.symm.trans hnd''
  exact ⟨nd, hnd, hlike⟩

theorem passable_eq : nodes'.passable i = nodes.passable i := by
  cases hnd : nodes i with
  | none => rw [Nodes.passable, Nodes.passable, hnd, halike.free i hnd]
  | some nd =>
      obtain ⟨nd', hnd', hlike⟩ := halike.node i nd hnd
      rw [Nodes.passable_eq hnd', Nodes.passable_eq hnd, hlike.mode]

theorem extents_iff {e : Nat × Nat} : (∃ i nd, nodes' i = some nd ∧ e ∈ nd.extents) ↔
    ∃ i nd, nodes i = some nd ∧ e ∈ nd.extents := by
  constructor
  · rintro ⟨i, nd', hnd', he⟩
    obtain ⟨nd, hnd, hlike⟩ := halike.of_some hnd'
    exact ⟨i, nd, hnd, hlike.extents ▸ he⟩
  · rintro ⟨i, nd, hnd, he⟩
    obtain ⟨nd', hnd', hlike⟩ := halike.node i nd hnd
    exact ⟨i, nd', hnd', hlike.extents ▸ he⟩

variable (h : Tree L nodes) (h' : Tree L nodes')
include h h'

theorem edge_iff : nodes'.Edge i name k ↔ nodes.Edge i name k := by
  cases hnd : nodes i with
  | none =>
      refine iff_of_false ?_ ?_
      · rintro ⟨nd', hnd', _⟩
        cases (halike.free i hnd).symm.trans hnd'
      · rintro ⟨nd, hsome, _⟩
        cases hnd.symm.trans hsome
  | some nd =>
      obtain ⟨nd', hnd', hlike⟩ := halike.node i nd hnd
      rw [h.edge_iff_entries hnd, h'.edge_iff_entries hnd', hlike.entries.mem_iff]

theorem lookup_eq (hname : name ≠ dot ∧ name ≠ dotDot) :
    nodes'.lookup i name = nodes.lookup i name := by
  refine Option.ext fun k => ?_
  rw [h'.lookup_eq_some hname, h.lookup_eq_some hname, halike.edge_iff h h']

theorem resolveFrom_eq (hcs : ∀ c ∈ name :: cs, c ≠ dot ∧ c ≠ dotDot) :
    nodes'.resolveFrom i name cs = nodes.resolveFrom i name cs := by
  induction cs generalizing i name with
  | nil =>
      rw [Nodes.resolveFrom, Nodes.resolveFrom,
        halike.lookup_eq h h' (hcs name List.mem_cons_self)]
  | cons next cs ih =>
      rw [Nodes.resolveFrom, Nodes.resolveFrom,
        halike.lookup_eq h h' (hcs name List.mem_cons_self)]
      cases nodes.lookup i name with
      | none => rfl
      | some j =>
          simp only [halike.passable_eq]
          rw [ih fun c hc => hcs c (List.mem_cons_of_mem _ hc)]

theorem resolve_eq (hcs : ∀ c ∈ cs, c ≠ dot ∧ c ≠ dotDot) :
    nodes'.resolve cs = nodes.resolve cs := by
  cases cs with
  | nil => rfl
  | cons name cs => exact halike.resolveFrom_eq h h' hcs

end Nodes.Alike

/-! ## What alike nodes show -/

/-- The answer of `a1fs_getattr` for a path of a consistent image. -/
theorem Consistent.getattr_answer (h : Consistent L img nodes) (hcs : ValidPath cs) :
    (∃ i nd, nodes.resolve cs = ((i : Nat) : Int) ∧ nodes i = some nd ∧
      a1fsGetattr img (render cs) =
        .ok (0, ⟨i, nd.mode, nd.links, nd.size, 8 * nd.extents.length⟩)) ∨
      (nodes.resolve cs < 0 ∧ a1fsGetattr img (render cs) = .ok (nodes.resolve cs, Stat.zero)) := by
  have hlen := hcs.2
  rcases nodes.resolve_cases cs with ⟨i, hi⟩ | hneg | hneg
  · left
    obtain ⟨nd, hnd⟩ := Option.isSome_iff_exists.mp (h.tree.closed.resolve_live hi)
    obtain ⟨st, hst, _⟩ := getattr_node h.hold h.tree.closed hcs.component hcs.2 hi hnd
    obtain ⟨j, nd', hj, hnd', rfl⟩ := h.getattr_eq hcs hst
    obtain rfl : i = j := Int.ofNat_inj.mp (hi.symm.trans hj)
    cases hnd.symm.trans hnd'
    exact ⟨i, nd, hi, hnd, hst⟩
  · right
    rw [hneg, a1fsGetattr, if_neg (by omega), h.pathInode_eq hcs, hneg, ok_bind, if_pos rfl]
    exact ⟨by decide, rfl⟩
  · right
    rw [hneg, a1fsGetattr, if_neg (by omega), h.pathInode_eq hcs, hneg, ok_bind,
      if_neg (by decide), if_pos rfl]
    exact ⟨by decide, rfl⟩

section Restored

variable (h : Consistent L img nodes) (h' : Consistent L img' nodes') (halike : nodes'.Alike nodes)
include h h' halike

theorem Nodes.Alike.getattr (hcs : ValidPath cs) :
    a1fsGetattr img' (render cs) = a1fsGetattr img (render cs) := by
  have hresolve := halike.resolve_eq h.tree h'.tree hcs.ne_dots
  rcases h.getattr_answer hcs with ⟨i, nd, hi, hnd, hst⟩ | ⟨hneg, hst⟩
  · obtain ⟨nd', hnd', hlike⟩ := halike.node i nd hnd
    rcases h'.getattr_answer hcs with ⟨j, nd'', hj, hnd'', hst'⟩ | ⟨hneg', _⟩
    · obtain rfl : i = j := Int.ofNat_inj.mp (hi.symm.trans (hresolve.symm.trans hj))
      cases hnd'.symm.trans hnd''
      rw [hst, hst', hlike.mode, hlike.links, hlike.size, hlike.extents]
    · rw [hresolve, hi] at hneg'
      exact absurd hneg' (by omega)
  · rcases h'.getattr_answer hcs with ⟨j, _, hj, _⟩ | ⟨_, hst'⟩
    · rw [← hresolve, hj] at hneg
      exact absurd hneg (by omega)
    · rw [hst, hst', hresolve]

/-- The bits and the listings of alike nodes are the same. -/
theorem Nodes.Alike.restores {lost : Nat} (hfreeInodes : freeInodesCount img' = freeInodesCount img)
    (hfreeBlocks : freeBlocksCount img' = uint32 (freeBlocksCount img - lost)) :
    Restores img img' lost where
  paths := fun cs hcs => by
    rw [h.pathInode_eq hcs, h'.pathInode_eq hcs, halike.resolve_eq h.tree h'.tree hcs.ne_dots]
  attributes := fun cs hcs => halike.getattr h h' hcs
  listed := by
    intro cs names hcs hdir hnames
    obtain ⟨i, nd, hi, hnd, hmode⟩ := hdir.node h.hold h.tree.closed hcs.component hcs.2
    obtain ⟨nd', hnd', hlike⟩ := halike.node i nd hnd
    cases (h.readdir hcs.component hcs.2 hi hnd hmode).symm.trans hnames
    refine ⟨_, h'.readdir hcs.component hcs.2 ?_ hnd' (hlike.mode ▸ hmode),
      hlike.entries.map Prod.fst⟩
    rw [halike.resolve_eq h.tree h'.tree hcs.ne_dots, hi]
  inodeBits := by
    intro i hi
    rw [h.inodeBits_eq] at hi
    rw [h.of.inodeMapAddr, h'.of.inodeMapAddr, h.inodeBits i hi, h'.inodeBits i hi,
      halike.isSome_eq]
  dataBits := by
    intro b hb
    rw [h.of.dataMapAddr, h'.of.dataMapAddr, Bool.eq_iff_iff, h.dataBits b hb, h'.dataBits b hb,
      halike.extents_iff]
  freeInodes := hfreeInodes
  freeBlocks := hfreeBlocks

end Restored

/-! ## One entry made and removed -/

open scoped List in
/-- Removing from a grown directory leaves the entries it had. -/
theorem Node.Alike.shrunk (hlike : nd.Alike (pn.grown name i)) (hat : nd.IsDirAt k p)
    (hrest : rest.Perm (nd.children.erase (name, i))) (hmem : (name, i) ∈ nd.children) :
    (nd.shrunk rest).Alike pn where
  mode := hlike.mode
  links := by
    have hlinks : nd.links = pn.links + 1 := hlike.links
    rw [Node.shrunk, hlinks, Nat.add_sub_cancel]
  size := by
    have hsize : nd.size = pn.size + 256 := hlike.size
    rw [Node.shrunk, hsize, Nat.add_sub_cancel]
  extents := hlike.extents
  entries := by
    have htwo : nd.entries.take 2 = [(dot, k), (dotDot, p)] := by
      rw [hat.entries]
      rfl
    have hentries : (nd.shrunk rest).entries = (dot, k) :: (dotDot, p) :: rest := by
      rw [Node.shrunk, htwo]
      rfl
    refine (List.perm_append_right_iff [(name, i)]).mp ?_
    calc (nd.shrunk rest).entries ++ [(name, i)]
        = (dot, k) :: (dotDot, p) :: (rest ++ [(name, i)]) := by rw [hentries]; rfl
      _ ~ (dot, k) :: (dotDot, p) :: ((name, i) :: nd.children.erase (name, i)) :=
          ((List.perm_append_singleton _ _).trans (hrest.cons _)).cons _ |>.cons _
      _ ~ (dot, k) :: (dotDot, p) :: nd.children :=
          ((List.perm_cons_erase hmem).symm.cons _).cons _
      _ = nd.entries := hat.entries.symm
      _ ~ pn.entries ++ [(name, i)] := hlike.entries

section Removed

variable (h : Consistent L img nodes) (h' : Consistent L img' nodes')
  (hlinked : Tree L (nodes.linked p pn t.name i new)) (hnew : NewEntry nodes t p pn)
  (hnode : NewNode L nodes p i new) (halike : nodes'.Alike (nodes.linked p pn t.name i new))
include h h' hlinked hnew hnode halike

/-- The new path leads to the new node. -/
theorem Nodes.Alike.resolve_linked :
    nodes'.resolve (t.dirs ++ [t.name]) = (i : Int) ∧ nodes'.resolve t.dirs = (p : Int) := by
  have hwalk : Walk nodes.PassEdge 0 t.dirs p :=
    (h.tree.resolve_iff t.validParent.ne_dots).mp hnew.parent
  have hparent : Walk (nodes.linked p pn t.name i new).PassEdge 0 t.dirs p :=
    hwalk.mono fun _ _ _ => hnew.passEdge h hnode.free
  rw [halike.resolve_eq hlinked h'.tree t.validPath.ne_dots,
    halike.resolve_eq hlinked h'.tree t.validParent.ne_dots,
    hlinked.resolve_iff t.validPath.ne_dots, hlinked.resolve_iff t.validParent.ne_dots]
  exact ⟨walk_concat.mpr ⟨p, hparent, hnew.newEdge h hnode.free⟩, hparent⟩

omit h in
/-- Without the new node the nodes are alike those from before. -/
theorem Nodes.Alike.unlinked (hpn : nodes' p = some nd) (hedge : nodes'.Edge p t.name i)
    (hrest : rest.Perm (nd.children.erase (t.name, i))) :
    (nodes'.unlinked p nd rest i).Alike nodes := by
  have hne := hnew.ne hnode.free
  obtain ⟨nd', hnd', hlike⟩ := halike.node p _ (Nodes.linked_parent hne)
  cases hpn.symm.trans hnd'
  obtain ⟨q, hat, _⟩ := h'.tree.directory p nd hpn (hlike.mode ▸ hnew.directory)
  have hmem := (Nodes.edge_iff hpn).mp hedge
  constructor
  · intro j hj
    by_cases hji : j = i
    · rw [hji, Nodes.unlinked_gone]
    · have hjp : j ≠ p := by
        rintro rfl
        cases hj.symm.trans hnew.node
      rw [Nodes.unlinked_other hji hjp]
      exact halike.free j ((Nodes.linked_other hji hjp).trans hj)
  · intro j old hj
    have hji : j ≠ i := by
      rintro rfl
      cases hj.symm.trans hnode.free
    by_cases hjp : j = p
    · subst hjp
      cases hj.symm.trans hnew.node
      exact ⟨_, Nodes.unlinked_parent hji, hlike.shrunk hat hrest hmem⟩
    · rw [Nodes.unlinked_other hji hjp]
      exact halike.node j old ((Nodes.linked_other hji hjp).trans hj)

end Removed

/-- A call that is answered with 0, in any image that is alike the one after the call `c`,
leads back to nodes that are alike those before `c`. -/
def Undoes (L : Layout) (c : Call) (nodes nodes₁ : Nodes) : Prop :=
  ∀ img' nodes', Consistent L img' nodes' → nodes'.Alike nodes₁ →
    ∃ img'' nodes'', Guarded Answers (fun img a => a.1.Safe img) img' (c.undo, 0) img'' ∧
      Consistent L img'' nodes'' ∧ nodes''.Alike nodes

namespace Consistent

variable (h : Consistent L img nodes)
include h

/-- A new directory is removed again. -/
theorem mkdir_undoes {mode : Nat} {stale : Nat → UInt8}
    (hallowed : (Call.mkdir t mode stale).Allowed img) (hsafe : (Call.mkdir t mode stale).Safe img)
    (hrun : (Call.mkdir t mode stale).run img = .ok (0, img₁)) :
    ∃ nodes₁, Consistent L img₁ nodes₁ ∧ Undoes L (.mkdir t mode stale) nodes nodes₁ := by
  obtain ⟨nodes₁, h₁, hstep⟩ := h.nodeStep hallowed hsafe hrun
  refine ⟨nodes₁, h₁, fun img' nodes' h' halike => ?_⟩
  generalize hzero : (0 : Int) = r at hstep
  cases hstep with
  | mkdirRefused => exact absurd hzero (by decide)
  | @mkdir _ _ _ p pn i b hnew hnode hdir =>
      obtain ⟨hlen, hbuf, _⟩ := hsafe.resolve_left fun hfree => by
        have hrefused : (Call.mkdir t mode stale).run img = .ok (-enomem, img) := if_pos hfree
        cases hrefused.symm.trans hrun
      obtain ⟨hi, hp⟩ := halike.resolve_linked h h' h₁.tree hnew hnode
      obtain ⟨nd, hnd, hlike⟩ := halike.node i _ Nodes.linked_new
      have hmode : sIsDir nd.mode := by
        rw [hlike.mode]
        exact hdir
      have hundo : (Call.rmdir t stale).Allowed img' :=
        isDirectory_of_resolve h'.hold h'.tree.closed t.component t.length_lt hi hnd hmode
      have hsafe' : (Call.rmdir t stale).Safe img' := .inr ⟨hlen, fun _ => hbuf⟩
      obtain ⟨i', nd', hi', hnd', _, hcases⟩ := h'.rmdir_safe hundo hsafe'
      obtain rfl : i = i' := Int.ofNat_inj.mp (hi.symm.trans hi')
      cases hnd.symm.trans hnd'
      rcases hcases with ⟨hlinks, _⟩ |
        ⟨_, img'', p', pn', rest, hok, hp', hpn', _, hedge, _, hrest, h'', _⟩
      · exact absurd hlike.links hlinks
      · obtain rfl : p = p' := Int.ofNat_inj.mp (hp.symm.trans hp')
        exact ⟨img'', _, ⟨⟨hundo, hok⟩, hsafe'⟩, h'',
          halike.unlinked h' h₁.tree hnew hnode hpn' hedge hrest⟩

/-- A new file in the root is removed again. -/
theorem create_undoes {mode : Nat} {stale : Nat → UInt8} (hroot : t.dirs = [])
    (hallowed : (Call.create t mode stale).Allowed img)
    (hsafe : (Call.create t mode stale).Safe img)
    (hrun : (Call.create t mode stale).run img = .ok (0, img₁)) :
    ∃ nodes₁, Consistent L img₁ nodes₁ ∧ Undoes L (.create t mode stale) nodes nodes₁ := by
  obtain ⟨nodes₁, h₁, hstep⟩ := h.nodeStep hallowed hsafe hrun
  refine ⟨nodes₁, h₁, fun img' nodes' h' halike => ?_⟩
  generalize hzero : (0 : Int) = r at hstep
  cases hstep with
  | createRefused => exact absurd hzero (by decide)
  | @create _ _ _ p pn i hnew hnode hfile =>
      obtain ⟨hlen, _⟩ := hsafe.resolve_left fun hfree => by
        cases (create_refused hallowed.2.2.1 hfree).symm.trans hrun
      obtain ⟨hi, hp⟩ := halike.resolve_linked h h' h₁.tree hnew hnode
      obtain ⟨nd, hnd, hlike⟩ := halike.node i _ Nodes.linked_new
      have hmode : ¬ sIsDir nd.mode := by
        rw [hlike.mode]
        exact hfile
      have hundo : (Call.unlink t stale).Allowed img' :=
        isFile_of_resolve h'.hold h'.tree.closed t.component t.length_lt hi hnd hmode
      have hsafe' : (Call.unlink t stale).Safe img' := ⟨hlen, hroot⟩
      obtain ⟨i', nd', hi', hnd', _, img'', pn', rest, hok, hpn', _, hedge, _, hrest, h'', _⟩ :=
        h'.unlink_safe hundo hsafe'
      obtain rfl : i = i' := Int.ofNat_inj.mp (hi.symm.trans hi')
      rw [hroot] at hp
      obtain rfl : 0 = p := Int.ofNat_inj.mp hp
      exact ⟨img'', _, ⟨⟨hundo, hok⟩, hsafe'⟩, h'',
        halike.unlinked h' h₁.tree hnew hnode hpn' hedge hrest⟩

theorem undoes (hundo : c.Undoable) (hallowed : c.Allowed img) (hsafe : c.Safe img)
    (hrun : c.run img = .ok (0, img₁)) :
    ∃ nodes₁, Consistent L img₁ nodes₁ ∧ Undoes L c nodes nodes₁ := by
  cases c with
  | mkdir t mode stale => exact h.mkdir_undoes hallowed hsafe hrun
  | create t mode stale => exact h.create_undoes hundo hallowed hsafe hrun
  | rmdir t stale => exact absurd hundo id
  | unlink t stale => exact absurd hundo id
  | write t buf offset => exact absurd hundo id
  | truncate t size => exact absurd hundo id

end Consistent

/-! ## Entries made and removed in the opposite order -/

theorem Nodes.Alike.usedInodes (h : Consistent L img nodes) (h' : Consistent L img' nodes')
    (halike : nodes'.Alike nodes) : usedInodes img' = usedInodes img ∧
      usedBlocks img' = usedBlocks img := by
  rw [h.of.usedInodes, h'.of.usedInodes, h.of.usedBlocks, h'.of.usedBlocks]
  exact h.tally_used h' (fun _ => halike.isSome_eq) fun _ => halike.extents_iff

/-- Neither does a call that makes an entry lose anything, nor its removal more than the
block of a directory. -/
theorem undo_loses (img : Image) (hundo : c.Undoable) :
    c.lostInodes 0 = 0 ∧ c.lostBlocks img 0 = 0 ∧ c.undo.lostInodes 0 = 0 ∧
      c.undo.lostBlocks img 0 = c.undoLoss := by
  cases c with
  | mkdir t mode stale => exact ⟨rfl, rfl, rfl, rfl⟩
  | create t mode stale => exact ⟨rfl, rfl, rfl, rfl⟩
  | rmdir t stale => exact absurd hundo id
  | unlink t stale => exact absurd hundo id
  | write t buf offset => exact absurd hundo id
  | truncate t size => exact absurd hundo id

/-- The nodes after calls that make entries, and what the removals lead back to. -/
theorem Consistent.undoAll (h : Consistent L img nodes) (hundo : ∀ c ∈ calls, c.Undoable)
    (run : AnsweredRun img (succeeded calls) img₁) :
    ∃ nodes₁, Consistent L img₁ nodes₁ ∧ Loses img img₁ 0 0 ∧
      ∀ img' nodes', Consistent L img' nodes' → nodes'.Alike nodes₁ →
        ∃ img'' nodes'', AnsweredRun img' (succeeded (undoAll calls)) img'' ∧
          Consistent L img'' nodes'' ∧ nodes''.Alike nodes ∧
            Loses img' img'' 0 (calls.map Call.undoLoss).sum := by
  induction calls using List.reverseRecOn generalizing img₁ with
  | nil =>
      obtain rfl := run.nil_inv
      exact ⟨nodes, h, .refl _, fun img' nodes' h' halike =>
        ⟨img', nodes', .nil, h', halike, .refl img'⟩⟩
  | append_singleton calls c ih =>
      rw [succeeded, List.map_append, List.map_singleton] at run
      obtain ⟨img₀, hbefore, ⟨hallowed, hrun⟩, hsafe⟩ := run.concat_inv
      obtain ⟨nodes₀, h₀, hlost₀, hback⟩ :=
        ih (fun d hd => hundo d (List.mem_append_left _ hd)) hbefore
      have hc := hundo c (by simp)
      obtain ⟨hinodes, hblocks, _, _⟩ := undo_loses img₀ hc
      obtain ⟨nodes₁, h₁, hundoes⟩ := h₀.undoes hc hallowed hsafe hrun
      have hlost := hlost₀.trans (h₀.loses hallowed hsafe hrun)
      rw [hinodes, hblocks] at hlost
      refine ⟨nodes₁, h₁, hlost, fun img' nodes' h' halike => ?_⟩
      -- The last entry is removed first, and the others then.
      obtain ⟨img₂, nodes₂, hstep, h₂, halike₂⟩ := hundoes img' nodes' h' halike
      obtain ⟨img₃, nodes₃, hrest, h₃, halike₃, hlost₃⟩ := hback img₂ nodes₂ h₂ halike₂
      obtain ⟨_, _, hinodes', hblocks'⟩ := undo_loses img' hc
      have hlost₂ := h'.loses hstep.1.1 hstep.2 hstep.1.2
      rw [hinodes', hblocks'] at hlost₂
      refine ⟨img₃, nodes₃, ?_, h₃, halike₃, ?_⟩
      · have hcalls : succeeded (FileSystem.undoAll (calls ++ [c])) =
            [(c.undo, 0)] ++ succeeded (FileSystem.undoAll calls) := by
          simp [succeeded, FileSystem.undoAll]
        rw [hcalls]
        exact (Run.nil.snoc hstep).append hrest
      · have hsum := hlost₂.trans hlost₃
        rw [List.map_append, List.sum_append, List.map_singleton, List.sum_singleton]
        rwa [add_comm (c.undoLoss : Int), ← Int.natCast_add, add_zero] at hsum

/-- Entries that a run of safe calls makes are removed again by the opposite calls in the
opposite order, which are all safe and answered with 0, and the image is restored. A block
of each directory is lost to `free_blocks_count`. -/
theorem undo_restores {before : List Call} (hfresh : FreshImage img size n)
    (run : SafeRun img before img₁) (hundo : ∀ c ∈ calls, c.Undoable)
    (makes : AnsweredRun img₁ (succeeded calls) img₂) :
    ∃ img₃, AnsweredRun img₂ (succeeded (undoAll calls)) img₃ ∧
      Restores img₁ img₃ (calls.map Call.undoLoss).sum := by
  obtain ⟨nodes₁, h₁⟩ := run.consistent hfresh
  obtain ⟨nodes₂, h₂, hlost, hback⟩ := h₁.undoAll hundo makes
  obtain ⟨img₃, nodes₃, hrun, h₃, halike, hlost'⟩ := hback img₂ nodes₂ h₂ (.refl nodes₂)
  obtain ⟨husedInodes, husedBlocks⟩ := halike.usedInodes h₁ h₃
  obtain ⟨hinodes, hblocks⟩ := hlost.trans hlost'
  rw [husedInodes] at hinodes
  rw [husedBlocks] at hblocks
  have hfreeInodes : freeInodesCount img₁ < 4294967296 := load_lt
  have hfreeInodes' : freeInodesCount img₃ < 4294967296 := load_lt
  have hfreeBlocks' : freeBlocksCount img₃ < 4294967296 := load_lt
  refine ⟨img₃, hrun, halike.restores h₁ h₃ ?_ ?_⟩
  · omega
  · unfold uint32
    omega

theorem undo_restores_file : ∃ img₂ img₃, AnsweredRun smallImage (succeeded [createFile]) img₂ ∧
    AnsweredRun img₂ (succeeded (undoAll [createFile])) img₃ ∧
      Restores smallImage img₃ ([createFile].map Call.undoLoss).sum := by
  obtain ⟨img₂, hrun, run, _⟩ := createFile_run
  obtain ⟨⟨hallowed, _⟩, hsafe⟩ := run.single_inv
  have makes : AnsweredRun smallImage (succeeded [createFile]) img₂ :=
    Run.nil.snoc ⟨⟨hallowed, hrun⟩, hsafe⟩
  have hundo : ∀ c ∈ [createFile], c.Undoable := by
    intro c hc
    obtain rfl := List.mem_singleton.mp hc
    exact (show fileTarget.dirs = [] from rfl)
  obtain ⟨img₃, hback, hrestores⟩ := undo_restores smallImage_fresh .nil hundo makes
  exact ⟨img₂, img₃, makes, hback, hrestores⟩

end UoftOs.FileSystem
