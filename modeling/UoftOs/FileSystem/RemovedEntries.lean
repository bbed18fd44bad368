import UoftOs.FileSystem.AddedEntries

/-!
# Entries that are removed

A safe `a1fs_rmdir` or `a1fs_unlink` removes one name from one directory: the paths that
are not below it lead where they did, the other names are listed once each, and the
records of the other inodes stay as they were. In a nested directory `a1fs_unlink` changes
the extent of another inode.
-/

namespace UoftOs.FileSystem

open Lib.ByteMemory Lib.NamedTree Lib.Transition

/-- The image lacks the entry and what stands below it, and nothing else. -/
structure RemovesEntry (img img' : Image) (t : Target) : Prop where
  gone : pathInode img' t.path = .ok (-enoent)
  kept : ∀ cs, ValidPath cs → ¬ t.dirs ++ [t.name] <+: cs →
    pathInode img' (render cs) = pathInode img (render cs)
  listed : ∀ names, a1fsReaddir img t.parent = .ok (0, names) →
    ∃ names', a1fsReaddir img' t.parent = .ok (0, names') ∧ names'.Nodup ∧
      ∀ name, name ∈ names' ↔ name ∈ names ∧ name ≠ t.name
  records : ∀ i p j : Nat, pathInode img t.path = .ok (i : Int) →
    pathInode img t.parent = .ok (p : Int) → j < inodesCount img → j ≠ i → j ≠ p →
    AgreeOn img' img (inodeAddr img j) (inodeAddr img j + 64) ∧
      AgreeOn img' img (extentAddr img j) (extentAddr img j + 4096)

/-- The calls that remove an entry. -/
def Call.Removes : Call → Prop
  | .rmdir .. | .unlink .. => True
  | _ => False

variable {L : Layout} {img img' img₁ img₂ : Image} {nodes : Nodes} {nd pn : Node}
  {i j p size n : Nat} {t : Target} {name : Name} {pre cs : List Name} {rest : List (Name × Nat)}
  {calls : List Call}

/-- The names of a directory differ. -/
theorem Node.IsDirAt.nodup_names (h : nd.IsDirAt i p) : (nd.entries.map Prod.fst).Nodup := by
  have hvalid : ∀ name ∈ nd.children.map Prod.fst, name ≠ dot ∧ name ≠ dotDot := by
    intro name hname
    obtain ⟨e, he, rfl⟩ := List.mem_map.mp hname
    exact ⟨(h.names e he).1.ne_dot, (h.names e he).1.ne_dotDot⟩
  rw [h.map_fst, List.nodup_cons, List.nodup_cons]
  refine ⟨fun hmem => ?_, fun hmem => (hvalid _ hmem).2 rfl, h.nodup⟩
  rcases List.mem_cons.mp hmem with heq | hchild
  · exact absurd heq (by decide)
  · exact (hvalid _ hchild).1 rfl

/-! ## Paths past the removed entry -/

/-- An entry without entries of its own, and the entries that are left of its directory. -/
structure OldEntry (nodes : Nodes) (t : Target) (p : Nat) (pn : Node) (i : Nat)
    (rest : List (Name × Nat)) : Prop where
  found : nodes.resolve (t.dirs ++ [t.name]) = i
  parent : nodes.resolve t.dirs = p
  node : nodes p = some pn
  directory : sIsDir pn.mode
  edge : nodes.Edge p t.name i
  empty : ∀ n k, ¬ nodes.Edge i n k
  rest : rest.Perm (pn.children.erase (t.name, i))

namespace OldEntry

variable (hold : OldEntry nodes t p pn i rest)
include hold

theorem ne : p ≠ i := by
  rintro rfl
  exact hold.empty _ _ hold.edge

/-- The directory of the entry is passed through. -/
theorem passed : t.dirs = [] ∨ nodes.passable p := by
  by_contra hpass
  have happend := Nodes.resolve_append (c := t.name) hold.parent
  rw [if_neg hpass, hold.found] at happend
  simp only [enotdir] at happend
  omega

theorem passable_eq {k : Nat} (hlive : (nodes k).isSome) (hne : k ≠ i) :
    (nodes.unlinked p pn rest i).passable k = nodes.passable k := by
  obtain ⟨nd, hnd⟩ := Option.isSome_iff_exists.mp hlive
  obtain ⟨nd', hnd', hmode⟩ := Nodes.unlinked_mode rest hold.node hnd hne
  rw [Nodes.passable_eq hnd', Nodes.passable_eq hnd, hmode]

variable (h : Consistent L img nodes)
include h

theorem parent_walk : Walk nodes.PassEdge 0 t.dirs p :=
  (h.tree.resolve_iff t.validParent.ne_dots).mp hold.parent

/-- A path that is not below the entry does not look it up. -/
theorem other (hpre : Walk nodes.PassEdge 0 pre j)
    (hout : ¬ t.dirs ++ [t.name] <+: pre ++ name :: cs) : ¬ (j = p ∧ name = t.name) := by
  rintro ⟨rfl, rfl⟩
  rw [h.tree.passTree.walk_unique (hold.parent_walk h) hpre] at hout
  exact hout ⟨cs, by rw [List.append_assoc, List.singleton_append]⟩

variable (h' : Consistent L img' (nodes.unlinked p pn rest i))
include h'

theorem lookup_eq (hname : name ≠ dot ∧ name ≠ dotDot) (hother : ¬ (j = p ∧ name = t.name)) :
    (nodes.unlinked p pn rest i).lookup j name = nodes.lookup j name := by
  refine Option.ext fun k => ?_
  rw [h'.tree.lookup_eq_some hname, h.tree.lookup_eq_some hname,
    h.tree.edge_unlinked hold.node hold.directory hold.edge hold.empty hold.rest]
  exact and_iff_left hother

/-- The rest of a path that is not below the entry is resolved as before. -/
theorem resolveFrom_eq (hpre : Walk nodes.PassEdge 0 pre j) (hpass : j = 0 ∨ nodes.passable j)
    (hcs : ∀ c ∈ name :: cs, c ≠ dot ∧ c ≠ dotDot)
    (hout : ¬ t.dirs ++ [t.name] <+: pre ++ name :: cs) :
    (nodes.unlinked p pn rest i).resolveFrom j name cs = nodes.resolveFrom j name cs := by
  -- Induction on the rest; the part of the path already walked tells the entries apart.
  induction cs generalizing j name pre with
  | nil =>
      rw [Nodes.resolveFrom, Nodes.resolveFrom,
        hold.lookup_eq h h' (hcs name List.mem_cons_self) (hold.other h hpre hout)]
  | cons next cs ih =>
      have hother := hold.other h hpre hout
      rw [Nodes.resolveFrom, Nodes.resolveFrom,
        hold.lookup_eq h h' (hcs name List.mem_cons_self) hother]
      cases hl : nodes.lookup j name with
      | none => rfl
      | some k =>
          have hk := (h.tree.lookup_eq_some (hcs name List.mem_cons_self)).mp hl
          have hne : k ≠ i := by
            rintro rfl
            exact hother (h.tree.tree.unique _ _ _ _ _ hk hold.edge)
          simp only [hold.passable_eq (h.tree.live j name k hk) hne]
          split
          · rename_i hpassable
            have hwalk : Walk nodes.PassEdge 0 (pre ++ [name]) k :=
              walk_concat.mpr ⟨j, hpre, hpass, hk⟩
            refine ih hwalk (.inr hpassable) (fun c hc => hcs c (List.mem_cons_of_mem _ hc)) ?_
            rwa [List.append_assoc, List.singleton_append]
          · rfl

theorem resolve_eq (hcs : ∀ c ∈ cs, c ≠ dot ∧ c ≠ dotDot) (hout : ¬ t.dirs ++ [t.name] <+: cs) :
    (nodes.unlinked p pn rest i).resolve cs = nodes.resolve cs := by
  cases cs with
  | nil => rfl
  | cons name cs =>
      have hwalk : Walk nodes.PassEdge 0 [] 0 := rfl
      exact hold.resolveFrom_eq h h' hwalk (.inl rfl) hcs hout

/-- The directory of the entry is found again. -/
theorem resolve_parent : (nodes.unlinked p pn rest i).resolve t.dirs = (p : Int) := by
  rw [← hold.parent]
  refine hold.resolve_eq h h' t.validParent.ne_dots fun hpre => ?_
  have hlen := hpre.length_le
  rw [List.length_append, List.length_singleton] at hlen
  omega

/-- The names that are left. -/
theorem names_left : ((pn.shrunk rest).entries.map Prod.fst).Nodup ∧
    ∀ name, name ∈ (pn.shrunk rest).entries.map Prod.fst ↔
      name ∈ pn.entries.map Prod.fst ∧ name ≠ t.name := by
  obtain ⟨hchildren, _, hmem⟩ := h.tree.children_shrunk hold.node hold.directory hold.edge hold.rest
  obtain ⟨q, hat, _⟩ := h.tree.directory p pn hold.node hold.directory
  obtain ⟨q', hat', _⟩ := h'.tree.directory p _ (Nodes.unlinked_parent (hold.ne)) hold.directory
  refine ⟨hat'.nodup_names, fun name => ?_⟩
  have hdot : t.name ≠ dot := t.name_valid.ne_dot
  have hdotDot : t.name ≠ dotDot := t.name_valid.ne_dotDot
  rw [hat'.map_fst, hat.map_fst, hchildren]
  simp only [List.mem_cons, List.mem_map, Prod.exists, exists_and_right, exists_eq_right]
  constructor
  · rintro (rfl | rfl | ⟨k, hk⟩)
    · exact ⟨.inl rfl, hdot.symm⟩
    · exact ⟨.inr (.inl rfl), hdotDot.symm⟩
    · obtain ⟨hk, hne⟩ := (hmem name k).mp hk
      exact ⟨.inr (.inr ⟨k, hk⟩), hne⟩
  · rintro ⟨rfl | rfl | ⟨k, hk⟩, hne⟩
    · exact .inl rfl
    · exact .inr (.inl rfl)
    · exact .inr (.inr ⟨k, (hmem name k).mpr ⟨hk, hne⟩⟩)

/-- The image without the node lacks the entry, and nothing else. -/
theorem removesEntry (hkeeps : L.KeepsOthers img' img p) : RemovesEntry img img' t := by
  have hname : t.name ≠ dot ∧ t.name ≠ dotDot := ⟨t.name_valid.ne_dot, t.name_valid.ne_dotDot⟩
  have hparent := hold.resolve_parent h h'
  constructor
  case gone =>
      have hpath : pathInode img' t.path = _ := h'.pathInode_eq t.validPath
      rw [hpath, (h'.tree.absent_iff hparent hname).mpr]
      refine ⟨(hold.passed).imp id fun hpass => ?_, fun k hk => ?_⟩
      · rwa [hold.passable_eq (by rw [hold.node]; rfl) (hold.ne)]
      · rw [h.tree.edge_unlinked hold.node hold.directory hold.edge hold.empty hold.rest] at hk
        exact hk.2 ⟨rfl, rfl⟩
  case kept =>
      intro cs hcs hout
      rw [h'.pathInode_eq hcs, h.pathInode_eq hcs, hold.resolve_eq h h' hcs.ne_dots hout]
  case listed =>
      intro names hnames
      have hbefore := h.readdir t.validParent.component t.validParent.2 hold.parent hold.node
        hold.directory
      have hafter := h'.readdir t.validParent.component t.validParent.2 hparent
        (Nodes.unlinked_parent (hold.ne)) hold.directory
      cases hbefore.symm.trans hnames
      exact ⟨_, hafter, hold.names_left h h'⟩
  case records =>
      intro i' p' j _ hp' hj _ hjp
      have hpath : pathInode img t.parent = _ := h.pathInode_eq t.validParent
      rw [hpath, hold.parent, Except.ok.injEq] at hp'
      obtain rfl : p = p' := by omega
      rw [h.of.inodesCount] at hj
      rw [h.of.inodeAddr hj.le, h.of.extentAddr hj.le]
      have hrecord := L.recordAt_lt hj
      have hrecord' := L.recordAt_lt (h.tree.small p pn hold.node).inode_lt
      have hextent := L.extentAt_lt hj
      have hge := L.recordAt_ge j
      have hapart := Layout.recordAt_apart (L := L) hjp
      have hstart : 4096 * (L.extents : Int) ≤ L.extentAt j := by
        unfold Layout.extentAt
        omega
      have htable := L.extents_lt
      have hdata := L.extentBlocks
      constructor
      · intro x hlo hhi
        exact hkeeps x (by omega) (by omega) (by omega)
      · intro x hlo hhi
        exact hkeeps x (by omega) (by omega) (by omega)

end OldEntry

/-- Over runs of safe calls every removed entry is removed, and nothing else changes. -/
theorem removes_exactly_entry (hfresh : FreshImage img size n) (run : SafeRun img calls img₁)
    {c : Call} (hremoves : c.Removes) (hallowed : c.Allowed img₁) (hsafe : c.Safe img₁)
    (hrun : c.run img₁ = .ok (0, img₂)) : RemovesEntry img₁ img₂ c.target := by
  obtain ⟨nodes, h⟩ := run.consistent hfresh
  cases c with
  | mkdir t mode stale => exact absurd hremoves id
  | create t mode stale => exact absurd hremoves id
  | rmdir t stale =>
      obtain ⟨i, nd, hi, hnd, _, hcases⟩ := h.rmdir_safe hallowed hsafe
      rcases hcases with ⟨_, hrefused⟩ |
        ⟨_, img', p, pn, rest, hok, hp, hpn, hdir, hedge, hempty, hrest, h', hkeeps⟩
      · cases hrefused.symm.trans hrun
      · cases hok.symm.trans hrun
        have hold : OldEntry nodes t p pn i rest := ⟨hi, hp, hpn, hdir, hedge, hempty, hrest⟩
        exact hold.removesEntry h h' hkeeps
  | unlink t stale =>
      obtain ⟨i, nd, hi, hnd, _, img', pn, rest, hok, hpn, hdir, hedge, hempty, hrest, h', hkeeps⟩ :=
        h.unlink_safe hallowed hsafe
      cases hok.symm.trans hrun
      have hroot : nodes.resolve t.dirs = ((0 : Nat) : Int) := by
        rw [hsafe.2]
        rfl
      have hold : OldEntry nodes t 0 pn i rest := ⟨hi, hroot, hpn, hdir, hedge, hempty, hrest⟩
      exact hold.removesEntry h h' hkeeps
  | write t buf offset => exact absurd hremoves id
  | truncate t size => exact absurd hremoves id

theorem removes_exactly_entry_file : ∃ img₁ img₂, SafeRun smallImage [createFile] img₁ ∧
    (Call.unlink fileTarget fun _ => 0).Allowed img₁ ∧
    (Call.unlink fileTarget fun _ => 0).Safe img₁ ∧
    (Call.unlink fileTarget fun _ => 0).run img₁ = .ok (0, img₂) ∧
    RemovesEntry img₁ img₂ fileTarget := by
  obtain ⟨img₁, _, run, h⟩ := createFile_run
  have hallowed : (Call.unlink fileTarget fun _ => 0).Allowed img₁ := h.fileNodes_isFile
  have hsafe : (Call.unlink fileTarget fun _ => 0).Safe img₁ := ⟨by decide, rfl⟩
  obtain ⟨_, _, _, _, _, img₂, _, _, hrun, _⟩ := h.unlink_safe hallowed hsafe
  exact ⟨img₁, img₂, run, hallowed, hsafe, hrun,
    removes_exactly_entry smallImage_fresh run (c := .unlink fileTarget fun _ => 0) trivial hallowed
      hsafe hrun⟩

/-- `a1fs_unlink` of `"/a/b/y"` changes the extent of `"/a"`. -/
theorem unlink_changes_other_extent :
    ¬ ∀ (img : Image) (size n : Nat) (calls : List Call) (img₁ img₂ : Image) (c : Call),
      FreshImage img size n → Run Performs img calls img₁ → c.Removes → c.ZeroBuffer →
      c.Allowed img₁ → c.run img₁ = .ok (0, img₂) → RemovesEntry img₁ img₂ c.target := by
  intro hclaim
  obtain ⟨img₁, hfirst, _, hbuilt₁⟩ := makeOuter
  obtain ⟨img₂, hsecond, hbuilt₂⟩ := makeInner hbuilt₁
  obtain ⟨img₃, hthird, hbuilt₃⟩ := makeNested hbuilt₂
  obtain ⟨img₄, hfourth, _, hlength, _⟩ := unlinkNested hbuilt₃
  have h := hbuilt₃.consistent
  have hremoves := hclaim _ _ _ _ _ _ (.unlink nestedTarget fun _ => 0) smallImage_fresh
    (((Run.nil.snoc hfirst.performs).snoc hsecond.performs).snoc hthird.performs) trivial
    (fun _ => rfl) hfourth.allowed hfourth.run
  have hpath : pathInode img₃ nestedTarget.path = .ok ((3 : Nat) : Int) :=
    (h.pathInode_eq nestedTarget.validPath).trans (congrArg _ (by decide))
  have hparent : pathInode img₃ nestedTarget.parent = .ok ((2 : Nat) : Int) :=
    (h.pathInode_eq nestedTarget.validParent).trans (congrArg _ (by decide))
  have hcount : 1 < inodesCount img₃ := by
    rw [h.of.inodesCount]
    decide
  have hextent := (hremoves.records 3 2 1 hpath hparent hcount (by decide) (by decide)).2
  have haddr : extentAddr img₃ (1 : Nat) = smallLayout.extentAt 1 := h.of.extentAddr (by decide)
  rw [haddr] at hextent
  have hold : extentLength img₃ (smallLayout.extentAt 1) (0 : Nat) = 1 :=
    ((h.hold.nodeAt 1 _ nestedNodes_outer).extents 0 (by decide)).2
  rw [extentLength_first] at hlength hold
  have hsame : inodeLinks img₄ (smallLayout.extentAt 1) = inodeLinks img₃ (smallLayout.extentAt 1) :=
    u32_congr (hextent.mono (by omega) (by omega))
  rw [hlength, hold] at hsame
  cases hsame

end UoftOs.FileSystem
