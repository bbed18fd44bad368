import UoftOs.FileSystem.RemovedEntries

/-!
# The namespace

What a user sees of the directories is a map from paths to what they lead to. Every run
of safe calls is a run of this map: a call answers as the map allows, adds or removes one
path of it, and `getattr` and `readdir` show the map that is left.

## Implementation notes

A directory whose mode has a setuid, setgid or sticky bit is not passed through by
`path_inode`. The map keeps this bit of a directory and nothing else of its mode.
-/

namespace UoftOs.FileSystem

open Lib.ByteMemory Lib.NamedTree Lib.Transition

/-- What a path leads to: a file, or a directory that is passed through or not. -/
inductive Kind
  | file
  | directory (passed : Bool)
  deriving DecidableEq

/-- The kind of an inode by its mode. -/
def Kind.ofMode (mode : Nat) : Kind :=
  if sIsDir mode then .directory (plainDirectory mode) else .file

/-- What the paths lead to. The root is the path without components. -/
abbrev Namespace := List Name → Option Kind

namespace Namespace

/-- The root alone. -/
def fresh : Namespace := fun cs => if cs = [] then some (.directory true) else none

/-- The target is a new name in a directory that is passed through. -/
def Vacant (ns : Namespace) (t : Target) : Prop :=
  ns (t.dirs ++ [t.name]) = none ∧ ns t.dirs = some (.directory true)

/-- Nothing stands below the target. -/
def Empty (ns : Namespace) (t : Target) : Prop :=
  ∀ name, ns (t.dirs ++ [t.name] ++ [name]) = none

/-- A part of the path leads to something that is not passed through. -/
def Blocked (ns : Namespace) (cs : List Name) : Prop :=
  ∃ pre c rest k, cs = pre ++ c :: rest ∧ pre ≠ [] ∧ ns pre = some k ∧ k ≠ .directory true

/-- What a call may answer, and the namespace it leaves. -/
inductive Does (ns : Namespace) : Call → Int → Namespace → Prop
  | mkdirRefused {t mode stale} : Does ns (.mkdir t mode stale) (-enomem) ns
  | mkdir {t mode stale} (h : ns.Vacant t) : Does ns (.mkdir t mode stale) 0
      (Function.update ns (t.dirs ++ [t.name]) (some (.ofMode (mode ||| sIfDir))))
  | createRefused {t mode stale} : Does ns (.create t mode stale) (-enomem) ns
  | create {t mode stale} (h : ns.Vacant t) : Does ns (.create t mode stale) 0
      (Function.update ns (t.dirs ++ [t.name]) (some .file))
  | rmdirRefused {t stale} (h : ¬ ns.Empty t) : Does ns (.rmdir t stale) (-enotempty) ns
  | rmdir {t stale b} (hdir : ns (t.dirs ++ [t.name]) = some (.directory b)) (h : ns.Empty t) :
      Does ns (.rmdir t stale) 0 (Function.update ns (t.dirs ++ [t.name]) none)
  | unlink {t stale} (h : ns (t.dirs ++ [t.name]) = some .file) :
      Does ns (.unlink t stale) 0 (Function.update ns (t.dirs ++ [t.name]) none)
  | write {t buf offset} (h : ns (t.dirs ++ [t.name]) = some .file) :
      Does ns (.write t buf offset) (buf.length : Nat) ns
  | truncate {t size} (h : ns (t.dirs ++ [t.name]) = some .file) :
      Does ns (.truncate t size) 0 ns

/-- A step of the namespace: a call with its answer. -/
def Answers (ns : Namespace) (a : Call × Int) (ns' : Namespace) : Prop := ns.Does a.1 a.2 ns'

end Namespace

/-- A call and its answer, on the image. -/
def Answers (img : Image) (a : Call × Int) (img' : Image) : Prop :=
  a.1.Allowed img ∧ a.1.run img = .ok (a.2, img')

/-- Runs of safe calls with their answers. -/
abbrev AnsweredRun (img : Image) (log : List (Call × Int)) (img' : Image) : Prop :=
  Run (Guarded Answers fun img a => a.1.Safe img) img log img'

/-- The image shows the namespace. -/
structure Shows (img : Image) (ns : Namespace) : Prop where
  found : ∀ cs k, ValidPath cs →
    (ns cs = some k ↔ ∃ st, a1fsGetattr img (render cs) = .ok (0, st) ∧ Kind.ofMode st.mode = k)
  blocked : ∀ cs, ValidPath cs →
    ((∃ st, a1fsGetattr img (render cs) = .ok (-enotdir, st)) ↔ ns.Blocked cs)
  listed : ∀ cs b, ValidPath cs → ns cs = some (.directory b) →
    ∃ names, a1fsReaddir img (render cs) = .ok (0, names) ∧ names.Nodup ∧
      ∀ name, name ∈ names ↔ name = dot ∨ name = dotDot ∨ ns (cs ++ [name]) ≠ none

/-! ## What a safe call does to the nodes -/

/-- The step rule of safe calls: what a call answers and does to the nodes. -/
inductive NodeStep (L : Layout) (nodes : Nodes) : Call → Int → Nodes → Prop
  | mkdirRefused {t mode stale} : NodeStep L nodes (.mkdir t mode stale) (-enomem) nodes
  | mkdir {t mode stale p pn i b} (hnew : NewEntry nodes t p pn)
      (hnode : NewNode L nodes p i (Node.emptyDirectory (mode ||| sIfDir) i p b))
      (hdir : sIsDir (mode ||| sIfDir)) : NodeStep L nodes (.mkdir t mode stale) 0
        (nodes.linked p pn t.name i (Node.emptyDirectory (mode ||| sIfDir) i p b))
  | createRefused {t mode stale} : NodeStep L nodes (.create t mode stale) (-enomem) nodes
  | create {t mode stale p pn i} (hnew : NewEntry nodes t p pn)
      (hnode : NewNode L nodes p i (Node.emptyFile mode)) (hfile : ¬ sIsDir mode) :
      NodeStep L nodes (.create t mode stale) 0 (nodes.linked p pn t.name i (Node.emptyFile mode))
  | rmdirRefused {t stale nd} {i : Nat} (hi : nodes.resolve (t.dirs ++ [t.name]) = i)
      (hnd : nodes i = some nd) (hdir : sIsDir nd.mode) (hlinks : nd.links ≠ 2) :
      NodeStep L nodes (.rmdir t stale) (-enotempty) nodes
  | rmdir {t stale p pn i nd rest} (hold : OldEntry nodes t p pn i rest) (hnd : nodes i = some nd)
      (hdir : sIsDir nd.mode) : NodeStep L nodes (.rmdir t stale) 0 (nodes.unlinked p pn rest i)
  | unlink {t stale p pn i nd rest} (hold : OldEntry nodes t p pn i rest) (hnd : nodes i = some nd)
      (hfile : ¬ sIsDir nd.mode) :
      NodeStep L nodes (.unlink t stale) 0 (nodes.unlinked p pn rest i)
  | write {t buf offset nd new} {i : Nat} (hi : nodes.resolve (t.dirs ++ [t.name]) = i)
      (hnd : nodes i = some nd) (hfile : ¬ sIsDir nd.mode) (hmode : new.mode = nd.mode)
      (hlinks : new.links = nd.links) (hentries : new.entries = nd.entries) :
      NodeStep L nodes (.write t buf offset) (buf.length : Nat) (nodes.updated i new)
  | truncate {t size nd new} {i : Nat} (hi : nodes.resolve (t.dirs ++ [t.name]) = i)
      (hnd : nodes i = some nd) (hfile : ¬ sIsDir nd.mode) (hmode : new.mode = nd.mode)
      (hlinks : new.links = nd.links) (hentries : new.entries = nd.entries) :
      NodeStep L nodes (.truncate t size) 0 (nodes.updated i new)

variable {L : Layout} {img img' img₁ : Image} {nodes nodes' : Nodes} {nd pn new : Node}
  {i j p size n : Nat} {t : Target} {stale : Nat → UInt8} {name : Name} {cs : List Name}
  {rest : List (Name × Nat)} {ns : Namespace} {k : Kind} {log : List (Call × Int)}

/-- A node that stands in the tree after it was linked is a new node. -/
theorem Tree.newNode_of_linked (h' : Tree L (nodes.linked p pn name i new))
    (hpn : nodes p = some pn) (hfree : nodes i = none) (hchildren : new.children = [])
    (hdir : sIsDir new.mode → new.IsDirAt i p) : NewNode L nodes p i new where
  free := hfree
  small := h'.small i new Nodes.linked_new
  children := hchildren
  apart := by
    intro j nd e hnd he hmem
    have hji : j ≠ i := by
      rintro rfl
      rw [hfree] at hnd
      cases hnd
    by_cases hjp : j = p
    · subst hjp
      rw [hpn] at hnd
      cases hnd
      exact hji (h'.apart i j new _ e Nodes.linked_new (Nodes.linked_parent hji) he hmem).symm
    · have hnd' : nodes.linked p pn name i new j = some nd := by
        rw [Nodes.linked_other hji hjp, hnd]
      exact hji (h'.apart i j new nd e Nodes.linked_new hnd' he hmem).symm
  directory := hdir

/-- Every safe call makes a step of the nodes. -/
theorem Consistent.nodeStep (h : Consistent L img nodes) {c : Call} {r : Int}
    (hallowed : c.Allowed img) (hsafe : c.Safe img) (hrun : c.run img = .ok (r, img')) :
    ∃ nodes', Consistent L img' nodes' ∧ NodeStep L nodes c r nodes' := by
  cases c with
  | mkdir t mode stale =>
      rcases h.mkdir_safe hallowed hsafe with hrefused |
        ⟨p, pn, i, b, img₁, hnew, hleast, hi8, _, hok, h'⟩
      · cases hrefused.symm.trans hrun
        exact ⟨_, h, .mkdirRefused⟩
      · cases hok.symm.trans hrun
        have hfree := h.free_of_clear hi8 hleast.2.1
        refine ⟨_, h', .mkdir hnew (h'.tree.newNode_of_linked hnew.node hfree rfl fun _ => ?_)
          hallowed.2.2.1⟩
        exact ⟨rfl, rfl, rfl, List.cons_ne_nil _ _, fun _ he => absurd he List.not_mem_nil,
          List.nodup_nil⟩
  | create t mode stale =>
      rcases h.create_safe hallowed hsafe with hrefused |
        ⟨p, pn, i, img₁, hnew, hleast, hi8, _, hok, h'⟩
      · cases hrefused.symm.trans hrun
        exact ⟨_, h.of_setFreeInodesCount, .createRefused⟩
      · cases hok.symm.trans hrun
        have hfile := not_sIsDir_of_sIsReg hallowed.2.2.1
        have hfree := h.free_of_clear hi8 hleast.2.1
        exact ⟨_, h', .create hnew (h'.tree.newNode_of_linked hnew.node hfree rfl
          fun hdir => absurd hdir hfile) hfile⟩
  | rmdir t stale =>
      obtain ⟨i, nd, hi, hnd, hdir, hcases⟩ := h.rmdir_safe hallowed hsafe
      rcases hcases with ⟨hlinks, hrefused⟩ |
        ⟨_, img₁, p, pn, rest, hok, hp, hpn, hpdir, hedge, hempty, hrest, h', _⟩
      · cases hrefused.symm.trans hrun
        exact ⟨_, h, .rmdirRefused hi hnd hdir hlinks⟩
      · cases hok.symm.trans hrun
        exact ⟨_, h', .rmdir ⟨hi, hp, hpn, hpdir, hedge, hempty, hrest⟩ hnd hdir⟩
  | unlink t stale =>
      obtain ⟨i, nd, hi, hnd, hfile, img₁, pn, rest, hok, hpn, hpdir, hedge, hempty, hrest, h', _⟩ :=
        h.unlink_safe hallowed hsafe
      cases hok.symm.trans hrun
      have hroot : nodes.resolve t.dirs = ((0 : Nat) : Int) := by
        rw [hsafe.2]
        rfl
      exact ⟨_, h', .unlink ⟨hi, hroot, hpn, hpdir, hedge, hempty, hrest⟩ hnd hfile⟩
  | write t buf offset =>
      obtain ⟨i, nd, _, _, img₁, hi, hnd, hfile, hok, _, _, hcases⟩ := h.write_safe hallowed hsafe
      cases hok.symm.trans hrun
      rcases hcases with ⟨_, _, _, _, _, h'⟩ | ⟨_, _, _, _, _, h'⟩
      · exact ⟨_, h', .write hi hnd hfile rfl rfl rfl⟩
      · exact ⟨_, h', .write hi hnd hfile rfl rfl rfl⟩
  | truncate t size =>
      obtain ⟨i, nd, _, img₁, hi, hnd, hfile, _, hok, hcases⟩ := h.truncate_safe hallowed hsafe
      cases hok.symm.trans hrun
      rcases hcases with ⟨_, _, _, _, _, h'⟩ | ⟨_, _, h', _⟩
      · exact ⟨_, h', .truncate hi hnd hfile rfl rfl rfl⟩
      · exact ⟨_, h', .truncate hi hnd hfile rfl rfl rfl⟩

/-! ## The namespace of the nodes -/

/-- The edges of the nodes give the namespace, and only directories that are passed
through have entries. -/
structure Nodes.Named (nodes : Nodes) (ns : Namespace) : Prop where
  root : nodes.passable 0
  passed : ∀ i n k, nodes.Edge i n k → nodes.passable i
  paths : ∀ cs k, ns cs = some k ↔
    ∃ i nd, Walk nodes.Edge 0 cs i ∧ nodes i = some nd ∧ Kind.ofMode nd.mode = k

theorem Kind.ofMode_eq_directory {mode : Nat} {b : Bool} :
    Kind.ofMode mode = .directory b ↔ sIsDir mode ∧ plainDirectory mode = b := by
  unfold ofMode
  split
  · rename_i hdir
    simp [hdir]
  · rename_i hdir
    simp [hdir]

theorem Kind.ofMode_eq_file {mode : Nat} : Kind.ofMode mode = .file ↔ ¬ sIsDir mode := by
  unfold ofMode
  split
  · rename_i hdir
    simp [hdir]
  · rename_i hdir
    simp [hdir]

theorem Kind.ofMode_passed {mode : Nat} :
    Kind.ofMode mode = .directory true ↔ plainDirectory mode := by
  rw [Kind.ofMode_eq_directory]
  exact ⟨And.right, fun hplain => ⟨sIsDir_of_plainDirectory hplain, hplain⟩⟩

/-- A directory with other than two links has entries. -/
theorem Node.IsDirAt.children_ne_nil (h : nd.IsDirAt i p) (hlinks : nd.links ≠ 2) :
    nd.children ≠ [] := by
  intro hnil
  have hlen := h.length_entries
  rw [← h.links, hnil, List.length_nil] at hlen
  exact hlinks hlen

/-- A node that a path leads to is in use. -/
theorem Tree.walk_live (h : Tree L nodes) (hwalk : Walk nodes.Edge 0 cs i) :
    ∃ nd, nodes i = some nd := by
  rcases List.eq_nil_or_concat cs with rfl | ⟨cs, c, rfl⟩
  · obtain ⟨nd, hnd, _⟩ := h.root
    obtain rfl : 0 = i := hwalk
    exact ⟨nd, hnd⟩
  · obtain ⟨j, _, hedge⟩ := walk_concat.mp (List.concat_eq_append ▸ hwalk)
    exact Option.isSome_iff_exists.mp (h.live j c i hedge)

theorem Nodes.passable_iff :
    nodes.passable i ↔ ∃ nd, nodes i = some nd ∧ plainDirectory nd.mode := by
  unfold Nodes.passable
  split
  · rename_i nd hnd
    simp [hnd]
  · rename_i hnone
    simp [hnone]

namespace Nodes.Named

variable (hns : nodes.Named ns)
include hns

/-- Every edge is passed. -/
theorem passEdge_eq : nodes.PassEdge = nodes.Edge := by
  funext i n k
  exact propext ⟨And.right, fun hedge => ⟨.inr (hns.passed i n k hedge), hedge⟩⟩

theorem resolve_iff (h : Tree L nodes) (hcs : ∀ c ∈ cs, c ≠ dot ∧ c ≠ dotDot) :
    nodes.resolve cs = (i : Int) ↔ Walk nodes.Edge 0 cs i := by
  rw [h.resolve_iff hcs, hns.passEdge_eq]

/-- What a path leads to, by the inode it leads to. -/
theorem at_walk (hwalk : Walk nodes.Edge 0 cs i) (hnd : nodes i = some nd) :
    ns cs = some (.ofMode nd.mode) :=
  (hns.paths cs _).mpr ⟨i, nd, hwalk, hnd, rfl⟩

/-- A path that leads to nothing is not walked. -/
theorem none_iff (h : Tree L nodes) : ns cs = none ↔ ∀ i, ¬ Walk nodes.Edge 0 cs i := by
  constructor
  · intro hnone i hwalk
    obtain ⟨nd, hnd⟩ := h.walk_live hwalk
    rw [hns.at_walk hwalk hnd] at hnone
    cases hnone
  · intro hnone
    rw [Option.eq_none_iff_forall_ne_some]
    intro k hk
    obtain ⟨i, _, hwalk, _⟩ := (hns.paths cs k).mp hk
    exact hnone i hwalk

/-- An entry of a directory leads to something. -/
theorem child_iff (h : Tree L nodes) (hwalk : Walk nodes.Edge 0 cs i) :
    ns (cs ++ [name]) = none ↔ ∀ k, ¬ nodes.Edge i name k := by
  rw [hns.none_iff h]
  refine forall_congr' fun k => not_congr ?_
  rw [walk_concat]
  constructor
  · rintro ⟨j, hj, hedge⟩
    rwa [h.tree.walk_functional hwalk hj]
  · exact fun hedge => ⟨i, hwalk, hedge⟩

/-- A name that is not taken in a directory that is passed through. -/
theorem vacant (h : Tree L nodes) (hnew : NewEntry nodes t p pn) : ns.Vacant t := by
  have hwalk := (hns.resolve_iff h t.validParent.ne_dots).mp hnew.parent
  refine ⟨(hns.child_iff h hwalk).mpr hnew.absent, ?_⟩
  have hpass : nodes.passable p := by
    rcases hnew.passed with hroot | hpass
    · have hzero := hnew.parent
      rw [hroot, Nodes.resolve] at hzero
      obtain rfl : p = 0 := by omega
      exact hns.root
    · exact hpass
  rw [hns.at_walk hwalk hnew.node, Kind.ofMode_passed.mpr]
  rwa [← Nodes.passable_eq hnew.node]

/-- A new node adds one path. -/
theorem linked (h : Tree L nodes) (hnew : NewEntry nodes t p pn) (hnode : NewNode L nodes p i new) :
    (nodes.linked p pn t.name i new).Named
      (Function.update ns (t.dirs ++ [t.name]) (some (.ofMode new.mode))) := by
  have hedge : (nodes.linked p pn t.name i new).Edge = link nodes.Edge p t.name i :=
    funext fun j => h.edge_linked hnew.node hnew.directory hnode
  have hmode : ∀ {j nd}, nodes j = some nd →
      ∃ nd', nodes.linked p pn t.name i new j = some nd' ∧ nd'.mode = nd.mode := fun hj =>
    Nodes.linked_mode t.name new hnode.free hnew.node hj
  have hpassable : ∀ {j}, nodes.passable j → (nodes.linked p pn t.name i new).passable j := by
    intro j hpass
    obtain ⟨nd, hnd, hplain⟩ := Nodes.passable_iff.mp hpass
    obtain ⟨nd', hnd', heq⟩ := hmode hnd
    exact Nodes.passable_iff.mpr ⟨nd', hnd', heq ▸ hplain⟩
  have hparent := (hns.resolve_iff h t.validParent.ne_dots).mp hnew.parent
  have hleaf : ∀ m j, ¬ nodes.Edge i m j := by
    rintro m j ⟨nd, hnd, _⟩
    rw [hnode.free] at hnd
    cases hnd
  have hne : i ≠ p := by
    rintro rfl
    cases hnode.free.symm.trans hnew.node
  constructor
  case root => exact hpassable hns.root
  case passed =>
      intro j n k hjk
      rw [hedge] at hjk
      rcases hjk with hold | ⟨rfl, _, _⟩
      · exact hpassable (hns.passed j n k hold)
      · refine hpassable ?_
        have hdirs := (hns.vacant h hnew).2
        rw [hns.at_walk hparent hnew.node, Option.some.injEq, Kind.ofMode_passed] at hdirs
        rwa [Nodes.passable_eq hnew.node]
  case paths =>
      intro cs k
      rw [hedge]
      simp only [walk_link_iff hleaf hne]
      by_cases hcs : cs = t.dirs ++ [t.name]
      · -- The new path leads to the new node alone.
        subst hcs
        rw [Function.update_self, Option.some.injEq]
        constructor
        · rintro rfl
          exact ⟨i, new, .inr ⟨rfl, t.dirs, rfl, hparent⟩, Nodes.linked_new, rfl⟩
        · rintro ⟨j, nd, hwalk | ⟨rfl, _⟩, hnd, rfl⟩
          · obtain ⟨l, hl, hjl⟩ := walk_concat.mp hwalk
            rw [h.tree.walk_functional hl hparent] at hjl
            exact absurd hjl (hnew.absent j)
          · rw [Nodes.linked_new, Option.some.injEq] at hnd
            rw [hnd]
      · -- The other paths lead to nodes that keep their modes.
        rw [Function.update_of_ne hcs, hns.paths]
        constructor
        · rintro ⟨j, nd, hwalk, hnd, rfl⟩
          obtain ⟨nd', hnd', heq⟩ := hmode hnd
          exact ⟨j, nd', .inl hwalk, hnd', heq ▸ rfl⟩
        · rintro ⟨j, nd, hwalk | ⟨_, ms, rfl, hms⟩, hnd, rfl⟩
          · obtain ⟨nd₀, hnd₀⟩ := h.walk_live hwalk
            obtain ⟨nd', hnd', heq⟩ := hmode hnd₀
            cases hnd.symm.trans hnd'
            exact ⟨j, nd₀, hwalk, hnd₀, heq ▸ rfl⟩
          · rw [h.tree.walk_unique hms hparent] at hcs
            exact absurd rfl hcs

/-- A removed node takes its path along. -/
theorem unlinked (h : Tree L nodes) (hold : OldEntry nodes t p pn i rest) :
    (nodes.unlinked p pn rest i).Named (Function.update ns (t.dirs ++ [t.name]) none) := by
  have hedge : (nodes.unlinked p pn rest i).Edge = unlink nodes.Edge p t.name :=
    funext fun j => h.edge_unlinked hold.node hold.directory hold.edge hold.empty hold.rest
  have hmode : ∀ {j nd}, nodes j = some nd → j ≠ i →
      ∃ nd', nodes.unlinked p pn rest i j = some nd' ∧ nd'.mode = nd.mode := fun hj hji =>
    Nodes.unlinked_mode rest hold.node hj hji
  have hpassable : ∀ {j}, nodes.passable j → j ≠ i →
      (nodes.unlinked p pn rest i).passable j := by
    intro j hpass hji
    obtain ⟨nd, hnd, hplain⟩ := Nodes.passable_iff.mp hpass
    obtain ⟨nd', hnd', heq⟩ := hmode hnd hji
    exact Nodes.passable_iff.mpr ⟨nd', hnd', heq ▸ hplain⟩
  have hpath := (hns.resolve_iff h t.validPath.ne_dots).mp hold.found
  constructor
  case root => exact hpassable hns.root (h.edge_lt hold.edge).2.1.symm
  case passed =>
      intro j n k hjk
      rw [hedge] at hjk
      refine hpassable (hns.passed j n k hjk.1) ?_
      rintro rfl
      exact hold.empty n k hjk.1
  case paths =>
      intro cs k
      rw [hedge]
      simp only [h.tree.walk_unlink_iff hold.edge hold.empty]
      by_cases hcs : cs = t.dirs ++ [t.name]
      · subst hcs
        rw [Function.update_self]
        refine iff_of_false (Option.some_ne_none k).symm ?_
        rintro ⟨j, nd, ⟨hwalk, hji⟩, _⟩
        exact hji (h.tree.walk_functional hwalk hpath)
      · rw [Function.update_of_ne hcs, hns.paths]
        constructor
        · rintro ⟨j, nd, hwalk, hnd, rfl⟩
          have hji : j ≠ i := by
            rintro rfl
            exact hcs (h.tree.walk_unique hwalk hpath)
          obtain ⟨nd', hnd', heq⟩ := hmode hnd hji
          exact ⟨j, nd', ⟨hwalk, hji⟩, hnd', heq ▸ rfl⟩
        · rintro ⟨j, nd, ⟨hwalk, hji⟩, hnd, rfl⟩
          obtain ⟨nd₀, hnd₀⟩ := h.walk_live hwalk
          obtain ⟨nd', hnd', heq⟩ := hmode hnd₀ hji
          cases hnd.symm.trans hnd'
          exact ⟨j, nd₀, hwalk, hnd₀, heq ▸ rfl⟩

/-- Other contents of a file leave the paths as they are. -/
theorem updated (h : Tree L nodes) (h' : Tree L (nodes.updated i new)) (hnd : nodes i = some nd)
    (hfile : ¬ sIsDir nd.mode) (hmode : new.mode = nd.mode) : (nodes.updated i new).Named ns := by
  have hedge := h.edge_updated hnd hfile hmode (h'.small i new Nodes.updated_self)
  have hother : ∀ {j}, nodes.passable j → j ≠ i := by
    rintro j hpass rfl
    rw [Nodes.passable_eq hnd] at hpass
    exact hfile (sIsDir_of_plainDirectory hpass)
  have hpassable : ∀ {j}, nodes.passable j → (nodes.updated i new).passable j := by
    intro j hpass
    obtain ⟨nd, hnd, hplain⟩ := Nodes.passable_iff.mp hpass
    exact Nodes.passable_iff.mpr ⟨nd, (Nodes.updated_other (hother hpass)).trans hnd, hplain⟩
  constructor
  case root => exact hpassable hns.root
  case passed =>
      intro j n k hjk
      rw [hedge] at hjk
      exact hpassable (hns.passed j n k hjk)
  case paths =>
      intro cs k
      rw [hedge, hns.paths]
      refine exists_congr fun j => ?_
      by_cases hji : j = i
      · subst hji
        simp [Nodes.updated_self, hnd, hmode]
      · rw [Nodes.updated_other hji]

/-- Nothing stands below a directory without entries. -/
theorem empty_iff (h : Tree L nodes) (hi : nodes.resolve (t.dirs ++ [t.name]) = (i : Int)) :
    ns.Empty t ↔ ∀ name k, ¬ nodes.Edge i name k :=
  forall_congr' fun _ => hns.child_iff h ((hns.resolve_iff h t.validPath.ne_dots).mp hi)

/-- What the target leads to. -/
theorem at_target (h : Tree L nodes) (hi : nodes.resolve (t.dirs ++ [t.name]) = (i : Int))
    (hnd : nodes i = some nd) : ns (t.dirs ++ [t.name]) = some (.ofMode nd.mode) :=
  hns.at_walk ((hns.resolve_iff h t.validPath.ne_dots).mp hi) hnd

/-- A step of the nodes is a step of the namespace. -/
theorem step (h : Tree L nodes) (h' : Tree L nodes') {c : Call} {r : Int}
    (hstep : NodeStep L nodes c r nodes') : ∃ ns', ns.Does c r ns' ∧ nodes'.Named ns' := by
  cases hstep with
  | mkdirRefused => exact ⟨ns, .mkdirRefused, hns⟩
  | mkdir hnew hnode _ => exact ⟨_, .mkdir (hns.vacant h hnew), hns.linked h hnew hnode⟩
  | createRefused => exact ⟨ns, .createRefused, hns⟩
  | create hnew hnode hfile =>
      refine ⟨_, .create (hns.vacant h hnew), ?_⟩
      rw [← Kind.ofMode_eq_file.mpr hfile]
      exact hns.linked h hnew hnode
  | rmdirRefused hi hnd hdir hlinks =>
      refine ⟨ns, .rmdirRefused fun hempty => hlinks ?_, hns⟩
      obtain ⟨q, hat, _⟩ := h.directory _ _ hnd hdir
      by_contra htwo
      obtain ⟨e, he⟩ := List.exists_mem_of_ne_nil _ (hat.children_ne_nil htwo)
      exact (hns.empty_iff h hi).mp hempty e.1 e.2 ⟨_, hnd, he⟩
  | @rmdir t stale p pn i nd rest hold hnd hdir =>
      refine ⟨_, .rmdir (b := plainDirectory nd.mode) ?_ ((hns.empty_iff h hold.found).mpr hold.empty),
        hns.unlinked h hold⟩
      rw [hns.at_target h hold.found hnd, Kind.ofMode_eq_directory.mpr ⟨hdir, rfl⟩]
  | unlink hold hnd hfile =>
      refine ⟨_, .unlink ?_, hns.unlinked h hold⟩
      rw [hns.at_target h hold.found hnd, Kind.ofMode_eq_file.mpr hfile]
  | write hi hnd hfile hmode _ _ =>
      refine ⟨ns, .write ?_, hns.updated h h' hnd hfile hmode⟩
      rw [hns.at_target h hi hnd, Kind.ofMode_eq_file.mpr hfile]
  | truncate hi hnd hfile hmode _ _ =>
      refine ⟨ns, .truncate ?_, hns.updated h h' hnd hfile hmode⟩
      rw [hns.at_target h hi hnd, Kind.ofMode_eq_file.mpr hfile]

end Nodes.Named

/-- The fresh nodes are the root alone. -/
theorem freshNodes_named : freshNodes.Named Namespace.fresh where
  root := by decide
  passed := fun _ _ _ he => absurd he edge_fresh
  paths := by
    intro cs k
    rcases List.eq_nil_or_concat cs with rfl | ⟨cs, c, rfl⟩
    · constructor
      · rintro ⟨⟩
        exact ⟨0, rootNode, rfl, rfl, by decide⟩
      · rintro ⟨i, nd, hwalk, hnd, rfl⟩
        obtain ⟨_, rfl⟩ := freshNodes_eq hnd
        rfl
    · rw [Namespace.fresh, List.concat_eq_append, if_neg (by simp)]
      refine iff_of_false (Option.some_ne_none k).symm ?_
      rintro ⟨i, nd, hwalk, _⟩
      obtain ⟨j, _, hedge⟩ := walk_concat.mp hwalk
      exact edge_fresh hedge

/-! ## What the image shows -/

/-- A longer path is blocked where the path is, or at its end. -/
theorem Namespace.blocked_concat :
    ns.Blocked (cs ++ [name]) ↔
      ns.Blocked cs ∨ (cs ≠ [] ∧ ∃ k, ns cs = some k ∧ k ≠ .directory true) := by
  constructor
  · rintro ⟨pre, c, rest, k, hcs, hpre, hk, hnot⟩
    rcases List.eq_nil_or_concat rest with rfl | ⟨rest, d, rfl⟩
    · obtain ⟨rfl, _⟩ := List.append_inj' hcs rfl
      exact .inr ⟨hpre, k, hk, hnot⟩
    · rw [List.concat_eq_append, ← List.cons_append, ← List.append_assoc] at hcs
      obtain ⟨rfl, _⟩ := List.append_inj' hcs rfl
      exact .inl ⟨pre, c, rest, k, rfl, hpre, hk, hnot⟩
  · rintro (⟨pre, c, rest, k, rfl, hpre, hk, hnot⟩ | ⟨hne, k, hk, hnot⟩)
    · exact ⟨pre, c, rest ++ [name], k, by simp, hpre, hk, hnot⟩
    · exact ⟨cs, name, [], k, rfl, hne, hk, hnot⟩

/-- A path behind one that is not resolved fails as it does. -/
theorem Nodes.resolveFrom_append_of_neg {rest : List Name} {c : Name}
    (h : nodes.resolveFrom i name rest < 0) :
    nodes.resolveFrom i name (rest ++ [c]) = nodes.resolveFrom i name rest := by
  induction rest generalizing i name with
  | nil =>
      rw [resolveFrom] at h
      rw [List.nil_append, resolveFrom, resolveFrom]
      cases hl : nodes.lookup i name with
      | none => rfl
      | some k =>
          rw [hl] at h
          simp only [result] at h
          omega
  | cons next rest ih =>
      rw [resolveFrom] at h
      rw [List.cons_append, resolveFrom, resolveFrom]
      cases hl : nodes.lookup i name with
      | none => rfl
      | some k =>
          rw [hl] at h
          simp only at h ⊢
          by_cases hpass : nodes.passable k
          · rw [if_pos hpass] at h
            rw [if_pos hpass, if_pos hpass, ih h]
          · rw [if_neg hpass, if_neg hpass]

theorem Nodes.resolve_append_of_neg (h : nodes.resolve cs < 0) :
    nodes.resolve (cs ++ [name]) = nodes.resolve cs := by
  cases cs with
  | nil => exact absurd h (lt_irrefl 0)
  | cons c cs => exact Nodes.resolveFrom_append_of_neg h

/-- The outcomes of a resolution. -/
theorem Nodes.resolve_cases (nodes : Nodes) (cs : List Name) :
    (∃ i : Nat, nodes.resolve cs = i) ∨ nodes.resolve cs = -enoent ∨
      nodes.resolve cs = -enotdir := by
  have hresult : ∀ o : Option Nat, (∃ i : Nat, result o = i) ∨ result o = -enoent := by
    rintro (_ | i)
    · exact .inr rfl
    · exact .inl ⟨i, rfl⟩
  induction cs using List.reverseRecOn with
  | nil => exact .inl ⟨0, rfl⟩
  | append_singleton cs name ih =>
      rcases ih with ⟨i, hi⟩ | hneg | hneg
      · rw [Nodes.resolve_append hi]
        split
        · exact (hresult _).imp_right .inl
        · exact .inr (.inr rfl)
      · rw [Nodes.resolve_append_of_neg (by rw [hneg]; decide)]
        exact .inr (.inl hneg)
      · rw [Nodes.resolve_append_of_neg (by rw [hneg]; decide)]
        exact .inr (.inr hneg)

/-- Resolution stops where the namespace is blocked. -/
theorem Nodes.Named.blocked_iff (hns : nodes.Named ns) (h : Tree L nodes)
    (hcs : ∀ c ∈ cs, c ≠ dot ∧ c ≠ dotDot) : nodes.resolve cs = -enotdir ↔ ns.Blocked cs := by
  induction cs using List.reverseRecOn with
  | nil =>
      refine iff_of_false (show (0 : Int) ≠ -enotdir by decide) ?_
      rintro ⟨pre, c, rest, _, heq, _⟩
      cases pre <;> cases heq
  | append_singleton cs name ih =>
      have hpre := fun c hc => hcs c (List.mem_append_left _ hc)
      rw [Namespace.blocked_concat, ← ih hpre]
      rcases nodes.resolve_cases cs with ⟨i, hi⟩ | hneg | hneg
      · have hwalk := (hns.resolve_iff h hpre).mp hi
        obtain ⟨nd, hnd⟩ := h.walk_live hwalk
        have hnot : ¬ nodes.resolve cs = -enotdir := by
          rw [hi]
          unfold enotdir
          omega
        rw [or_iff_right hnot, Nodes.resolve_append hi, hns.at_walk hwalk hnd]
        simp only [Option.some.injEq, exists_eq_left', ne_eq, Kind.ofMode_passed,
          ← Nodes.passable_eq hnd]
        by_cases hpass : cs = [] ∨ nodes.passable i
        · rw [if_pos hpass]
          refine iff_of_false ?_ fun hblocked => hpass.elim hblocked.1 hblocked.2
          cases nodes.lookup i name with
          | none => decide
          | some j =>
              simp only [Nodes.result, enotdir]
              omega
        · rw [if_neg hpass]
          exact iff_of_true rfl (not_or.mp hpass)
      · rw [Nodes.resolve_append_of_neg (by rw [hneg]; decide)]
        refine (or_iff_left ?_).symm
        rintro ⟨_, k, hk, _⟩
        obtain ⟨i, _, hwalk, _⟩ := (hns.paths cs k).mp hk
        rw [(hns.resolve_iff h hpre).mpr hwalk] at hneg
        simp only [enoent] at hneg
        omega
      · rw [Nodes.resolve_append_of_neg (by rw [hneg]; decide)]
        exact iff_of_true hneg (.inl hneg)

/-- A consistent image shows the namespace of its nodes. -/
theorem Consistent.shows (h : Consistent L img nodes) (hns : nodes.Named ns) : Shows img ns where
  found := by
    intro cs k hcs
    rw [hns.paths]
    constructor
    · rintro ⟨i, nd, hwalk, hnd, rfl⟩
      have hi := (hns.resolve_iff h.tree hcs.ne_dots).mpr hwalk
      obtain ⟨st, hst, hmode⟩ := getattr_node h.hold h.tree.closed hcs.component hcs.2 hi hnd
      exact ⟨st, hst, by rw [hmode]⟩
    · rintro ⟨st, hst, rfl⟩
      obtain ⟨i, nd, hi, hnd, hmode⟩ :=
        getattr_found h.hold h.tree.closed hcs.component hcs.2 hst
      exact ⟨i, nd, (hns.resolve_iff h.tree hcs.ne_dots).mp hi, hnd, by rw [hmode]⟩
  blocked := by
    intro cs hcs
    have hlen := hcs.2
    rw [← hns.blocked_iff h.tree hcs.ne_dots, a1fsGetattr, if_neg (by omega), h.pathInode_eq hcs,
      ok_bind]
    rcases nodes.resolve_cases cs with ⟨i, hi⟩ | hneg | hneg
    · have hnot : (i : Int) ≠ -enoent ∧ (i : Int) ≠ -enotdir ∧ 0 ≤ (i : Int) := by
        unfold enoent enotdir
        omega
      rw [hi, if_neg hnot.1, if_neg hnot.2.1, if_pos hnot.2.2]
      refine iff_of_false ?_ hnot.2.1
      rintro ⟨st, hst⟩
      cases hst
    · rw [hneg, if_pos rfl]
      refine iff_of_false ?_ (by decide)
      rintro ⟨st, hst⟩
      cases hst
    · rw [hneg, if_neg (by decide), if_pos rfl]
      exact iff_of_true ⟨_, rfl⟩ rfl
  listed := by
    intro cs b hcs hk
    obtain ⟨i, nd, hwalk, hnd, hkind⟩ := (hns.paths cs _).mp hk
    obtain ⟨hdir, _⟩ := Kind.ofMode_eq_directory.mp hkind
    obtain ⟨q, hat, _⟩ := h.tree.directory i nd hnd hdir
    have hi := (hns.resolve_iff h.tree hcs.ne_dots).mpr hwalk
    refine ⟨_, h.readdir hcs.component hcs.2 hi hnd hdir, hat.nodup_names, fun name => ?_⟩
    rw [hat.map_fst, List.mem_cons, List.mem_cons, ne_eq, hns.child_iff h.tree hwalk, not_forall]
    simp only [not_not, Nodes.edge_iff hnd, List.mem_map, Prod.exists, exists_and_right,
      exists_eq_right]

/-! ## Runs -/

/-- Every run of safe calls is a run of the namespace with the same answers, and the image
shows the namespace that is left. -/
theorem namespace_refines (hfresh : FreshImage img size n) (run : AnsweredRun img log img') :
    ∃ ns, Run Namespace.Answers Namespace.fresh log ns ∧ Shows img' ns := by
  suffices hrun : ∃ nodes ns, Consistent (formatLayout size n hfresh.inodes_pos hfresh.fits.1) img'
      nodes ∧ nodes.Named ns ∧ Run Namespace.Answers Namespace.fresh log ns by
    obtain ⟨nodes, ns, h, hns, hlog⟩ := hrun
    exact ⟨ns, hlog, h.shows hns⟩
  refine Run.invariant (I := fun log img' => ∃ nodes ns, Consistent _ img' nodes ∧
    nodes.Named ns ∧ Run Namespace.Answers Namespace.fresh log ns) ?_ ?_ run
  · exact ⟨_, _, hfresh.consistent, freshNodes_named, .nil⟩
  · rintro log img₁ a img₂ ⟨nodes, ns, h, hns, hlog⟩ ⟨⟨hallowed, hrun⟩, hsafe⟩
    obtain ⟨nodes', h', hstep⟩ := h.nodeStep hallowed hsafe hrun
    obtain ⟨ns', hdoes, hns'⟩ := hns.step h.tree h'.tree hstep
    exact ⟨nodes', ns', h', hns', hlog.snoc hdoes⟩

theorem namespace_refines_outer : ∃ img ns,
    AnsweredRun smallImage [(.mkdir outerTarget 0o755 fun _ => 0, 0)] img ∧
      Run Namespace.Answers Namespace.fresh [(.mkdir outerTarget 0o755 fun _ => 0, 0)] ns ∧
        Shows img ns := by
  obtain ⟨img, houter, hsafe, _⟩ := makeOuter
  have run : AnsweredRun smallImage [(.mkdir outerTarget 0o755 fun _ => 0, 0)] img :=
    Run.nil.snoc ⟨⟨houter.allowed, houter.run⟩, hsafe⟩
  obtain ⟨ns, hns⟩ := namespace_refines smallImage_fresh run
  exact ⟨img, ns, run, hns⟩

end UoftOs.FileSystem
