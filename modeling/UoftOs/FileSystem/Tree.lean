import UoftOs.FileSystem.Fresh
import UoftOs.Lib.NamedTree

/-!
# Trees of nodes

The shape of a file system that stays within the first byte of its bitmaps: every
inode has at most one block, and the entries other than `"."` and `".."` form a tree.
What the calls do to the nodes is an edge more, an edge less, or another size.
-/

namespace UoftOs.FileSystem

open Lib.ByteMemory Lib.NamedTree

namespace Node

/-- The entries behind `"."` and `".."`. -/
def children (nd : Node) : List (Name × Nat) := nd.entries.drop 2

/-- The directory at inode `i` whose parent is `p`. -/
structure IsDirAt (nd : Node) (i p : Nat) : Prop where
  entries : nd.entries = (dot, i) :: (dotDot, p) :: nd.children
  links : nd.links = nd.entries.length
  size : nd.size = 256 * nd.entries.length
  block : nd.extents ≠ []
  names : ∀ e ∈ nd.children, ValidName e.1 ∧ e.1.length < 252
  nodup : (nd.children.map Prod.fst).Nodup

/-- The inode and its block have their bits in the first bytes of the bitmaps. -/
structure Small (nd : Node) (L : Layout) (i : Nat) : Prop where
  inode_lt : i < L.inodes
  inode_small : i < 8
  extents : nd.extents = [] ∨ ∃ b, nd.extents = [(b, 1)] ∧ b < 8 ∧ b < L.blocks
  size_le : nd.size ≤ 4096 * nd.extents.length
  file : ¬ sIsDir nd.mode → nd.entries = []

end Node

namespace Nodes

/-- Directory `i` has the entry `(n, k)`. -/
def Edge (nodes : Nodes) (i : Nat) (n : Name) (k : Nat) : Prop :=
  ∃ nd, nodes i = some nd ∧ (n, k) ∈ nd.children

/-- The entry of a directory that `path_inode` passes through. -/
def PassEdge (nodes : Nodes) (i : Nat) (n : Name) (k : Nat) : Prop :=
  (i = 0 ∨ nodes.passable i) ∧ nodes.Edge i n k

end Nodes

/-- Nodes with at most one block each, no block in common, in a tree of entries. -/
structure Tree (L : Layout) (nodes : Nodes) : Prop where
  blocks_le : L.blocks ≤ 65536
  last_lt : L.data + L.blocks < 524288
  small : ∀ i nd, nodes i = some nd → nd.Small L i
  apart : ∀ i j nd nd' e, nodes i = some nd → nodes j = some nd' → e ∈ nd.extents →
    e ∈ nd'.extents → i = j
  directory : ∀ i nd, nodes i = some nd → sIsDir nd.mode → ∃ p, nd.IsDirAt i p ∧
    ((i = 0 ∧ p = 0) ∨ ∃ n, nodes.Edge p n i)
  root : ∃ nd, nodes 0 = some nd ∧ sIsDir nd.mode
  live : ∀ i n k, nodes.Edge i n k → (nodes k).isSome
  tree : IsTree nodes.Edge 0

variable {L : Layout} {img img' : Image} {nodes : Nodes} {nd pn new : Node} {i j k p b : Nat}
  {name : Name} {cs : List Name}

/-! ## Directories of a tree -/

namespace Node

theorem mem_children {e : Name × Nat} (h : e ∈ nd.children) : e ∈ nd.entries :=
  List.mem_of_mem_drop h

theorem Small.mem_extents {s c : Nat} (h : nd.Small L i) (he : (s, c) ∈ nd.extents) :
    nd.extents = [(s, c)] ∧ c = 1 ∧ s < 8 ∧ s < L.blocks := by
  rcases h.extents with hnil | ⟨b, hone, hlt, hle⟩
  · rw [hnil] at he
    cases he
  · rw [hone, List.mem_singleton, Prod.mk.injEq] at he
    obtain ⟨rfl, rfl⟩ := he
    exact ⟨hone, rfl, hlt, hle⟩

theorem Small.blocks_eq (h : nd.Small L i) : nd.blocks = nd.extents.map Prod.fst := by
  rcases h.extents with hnil | ⟨b, hone, _, _⟩
  · rw [blocks, hnil]
    rfl
  · rw [blocks, hone]
    rfl

theorem Small.mem_blocks (h : nd.Small L i) : b ∈ nd.blocks ↔ (b, 1) ∈ nd.extents := by
  rw [h.blocks_eq, List.mem_map]
  constructor
  · rintro ⟨⟨s, c⟩, he, rfl⟩
    obtain ⟨_, rfl, _, _⟩ := h.mem_extents he
    exact he
  · exact fun he => ⟨_, he, rfl⟩

theorem IsDirAt.mem_entries {e : Name × Nat} (h : nd.IsDirAt i p) (he : e ∈ nd.entries) :
    e = (dot, i) ∨ e = (dotDot, p) ∨ e ∈ nd.children := by
  rw [h.entries] at he
  simpa using he

theorem IsDirAt.length_entries (h : nd.IsDirAt i p) :
    nd.entries.length = nd.children.length + 2 := by
  rw [h.entries]
  rfl

/-- A valid name is not that of the first two entries. -/
theorem IsDirAt.mem_children_iff (h : nd.IsDirAt i p) (hname : name ≠ dot ∧ name ≠ dotDot) :
    (name, k) ∈ nd.entries ↔ (name, k) ∈ nd.children := by
  refine ⟨fun he => ?_, mem_children⟩
  rcases h.mem_entries he with heq | heq | hmem
  · cases heq
    exact absurd rfl hname.1
  · cases heq
    exact absurd rfl hname.2
  · exact hmem

end Node

namespace Nodes

theorem edge_iff (h : nodes i = some nd) : nodes.Edge i name k ↔ (name, k) ∈ nd.children := by
  constructor
  · rintro ⟨nd', hnd', hmem⟩
    rw [h] at hnd'
    cases hnd'
    exact hmem
  · exact fun hmem => ⟨nd, h, hmem⟩

/-- An entry with the name makes the lookup succeed. -/
theorem exists_lookup (h : nodes i = some nd) (he : (name, k) ∈ nd.entries) :
    ∃ j, nodes.lookup i name = some j := by
  have hgen : ∀ (entries : List (Name × Nat)) (r : Option Nat),
      (name, k) ∈ entries ∨ r.isSome →
        (entries.foldl (fun r e => if e.1 = name then some e.2 else r) r).isSome := by
    intro entries
    induction entries with
    | nil =>
        intro r hr
        exact hr.resolve_left List.not_mem_nil
    | cons e entries ih =>
        intro r hr
        rw [List.foldl_cons]
        apply ih
        by_cases hname : e.1 = name
        · rw [if_pos hname]
          exact .inr rfl
        · rw [if_neg hname]
          rcases hr with hmem | hsome
          · rcases List.mem_cons.mp hmem with rfl | hrest
            · exact absurd rfl hname
            · exact .inl hrest
          · exact .inr hsome
  rw [lookup, entriesOf_eq h]
  exact Option.isSome_iff_exists.mp (hgen nd.entries none (.inl he))

end Nodes

namespace Tree

variable (h : Tree L nodes)
include h

theorem edge_lt (he : nodes.Edge i name k) : k < 8 ∧ k ≠ 0 ∧ k < L.inodes := by
  obtain ⟨nd, hnd⟩ := Option.isSome_iff_exists.mp (h.live i name k he)
  refine ⟨(h.small k nd hnd).inode_small, ?_, (h.small k nd hnd).inode_lt⟩
  rintro rfl
  exact h.tree.root_free i name he

/-- The inodes of the entries differ, and their number is small. -/
theorem length_children (hnd : nodes i = some nd) (hdir : sIsDir nd.mode) :
    nd.children.length ≤ 8 := by
  obtain ⟨p, hat, _⟩ := h.directory i nd hnd hdir
  have hnodup : (nd.children.map Prod.snd).Nodup := by
    refine List.Nodup.map_on ?_ hat.nodup.of_map
    intro e he e' he' heq
    obtain ⟨_, hname⟩ := h.tree.unique i i e.1 e'.1 e.2 ⟨nd, hnd, he⟩ ⟨nd, hnd, heq ▸ he'⟩
    exact Prod.ext hname heq
  have hsub : nd.children.map Prod.snd ⊆ List.range 8 := by
    intro k hk
    obtain ⟨e, he, rfl⟩ := List.mem_map.mp hk
    exact List.mem_range.mpr (h.edge_lt ⟨nd, hnd, he⟩).1
  have hle := (hnodup.subperm hsub).length_le
  rwa [List.length_map, List.length_range] at hle

theorem length_entries (hnd : nodes i = some nd) : nd.entries.length ≤ 10 := by
  by_cases hdir : sIsDir nd.mode
  · obtain ⟨p, hat, _⟩ := h.directory i nd hnd hdir
    have hle := h.length_children hnd hdir
    rw [hat.length_entries]
    omega
  · rw [(h.small i nd hnd).file hdir]
    simp

/-- A node with entries is a directory with one block. -/
theorem exists_block (hnd : nodes i = some nd) (hdir : sIsDir nd.mode) :
    ∃ b, nd.extents = [(b, 1)] ∧ b < 8 ∧ b < L.blocks := by
  obtain ⟨p, hat, _⟩ := h.directory i nd hnd hdir
  exact (h.small i nd hnd).extents.resolve_left hat.block

theorem ok (hnd : nodes i = some nd) : nd.Ok L := by
  have hsmall := h.small i nd hnd
  have hlen := h.length_entries hnd
  have hlast := h.last_lt
  have hone : nd.extents.length ≤ 1 := by
    rcases hsmall.extents with hnil | ⟨b, hone, _, _⟩
    · simp [hnil]
    · simp [hone]
  constructor
  case extents_le => omega
  case extents_pos =>
      rintro ⟨s, c⟩ he
      obtain ⟨_, rfl, _, _⟩ := hsmall.mem_extents he
      exact Nat.one_pos
  case blocks_lt =>
      intro b hb
      obtain ⟨_, _, _, hlt⟩ := hsmall.mem_extents (hsmall.mem_blocks.mp hb)
      omega
  case entries_le => omega
  case entries_fit =>
      by_cases hdir : sIsDir nd.mode
      · obtain ⟨b, hb, _, _⟩ := h.exists_block hnd hdir
        have hlen' : nd.blocks.length = 1 := by
          rw [hsmall.blocks_eq, hb]
          rfl
        omega
      · rw [hsmall.file hdir]
        exact Nat.zero_le _
  case names =>
      intro e he
      by_cases hdir : sIsDir nd.mode
      · obtain ⟨p, hat, _⟩ := h.directory i nd hnd hdir
        rcases hat.mem_entries he with rfl | rfl | hmem
        · exact ⟨show ZeroFree dot by decide, show dot.length < 252 by decide⟩
        · exact ⟨show ZeroFree dotDot by decide, show dotDot.length < 252 by decide⟩
        · exact ⟨(hat.names e hmem).1.zeroFree, (hat.names e hmem).2⟩
      · rw [hsmall.file hdir] at he
        cases he
  case size_dir =>
      intro hdir
      obtain ⟨p, hat, _⟩ := h.directory i nd hnd hdir
      exact hat.size
  case not_dir => exact hsmall.file

theorem closed : Closed nodes L where
  inode_lt := fun i nd hnd => (h.small i nd hnd).inode_lt
  ok := fun _ _ hnd => h.ok hnd
  entries := by
    intro i nd hnd e he
    by_cases hdir : sIsDir nd.mode
    · obtain ⟨p, hat, hparent⟩ := h.directory i nd hnd hdir
      rcases hat.mem_entries he with rfl | rfl | hmem
      · rw [hnd]
        rfl
      · rcases hparent with ⟨rfl, rfl⟩ | ⟨n, pn, hpn, _⟩
        · rw [hnd]
          rfl
        · rw [hpn]
          rfl
      · exact h.live i e.1 e.2 ⟨nd, hnd, hmem⟩
    · rw [(h.small i nd hnd).file hdir] at he
      cases he
  root := h.root

/-! ## Lookups -/

theorem lookup_eq_some (hname : name ≠ dot ∧ name ≠ dotDot) :
    nodes.lookup i name = some k ↔ nodes.Edge i name k := by
  have hmem : ∀ {j nd}, nodes i = some nd → (name, j) ∈ nd.entries → nodes.Edge i name j := by
    intro j nd hnd he
    by_cases hdir : sIsDir nd.mode
    · obtain ⟨p, hat, _⟩ := h.directory i nd hnd hdir
      exact ⟨nd, hnd, (hat.mem_children_iff hname).mp he⟩
    · rw [(h.small i nd hnd).file hdir] at he
      cases he
  constructor
  · intro hl
    have he := Nodes.mem_of_lookup hl
    unfold Nodes.entriesOf at he
    split at he
    · rename_i nd hnd
      exact hmem hnd he
    · cases he
  · rintro ⟨nd, hnd, he⟩
    obtain ⟨j, hj⟩ := Nodes.exists_lookup hnd (Node.mem_children he)
    have he' := Nodes.mem_of_lookup hj
    rw [Nodes.entriesOf_eq hnd] at he'
    rw [hj, h.tree.functional i name j k (hmem hnd he') ⟨nd, hnd, he⟩]

theorem resolveFrom_iff {rest : List Name}
    (hcs : ∀ c ∈ name :: rest, c ≠ dot ∧ c ≠ dotDot) :
    nodes.resolveFrom i name rest = (j : Int) ↔
      ∃ k, nodes.Edge i name k ∧ Walk nodes.PassEdge k rest j := by
  induction rest generalizing i name with
  | nil =>
      have hl := h.lookup_eq_some (i := i) (k := j) (hcs name List.mem_cons_self)
      rw [Nodes.resolveFrom]
      simp only [Walk, exists_eq_right]
      rw [← hl]
      cases hr : nodes.lookup i name with
      | none =>
          simp only [Nodes.result, enoent, reduceCtorEq]
      | some m =>
          simp only [Nodes.result, Option.some.injEq]
          omega
  | cons next rest ih =>
      have hrest := fun m => ih (i := m) fun c hc => hcs c (List.mem_cons_of_mem _ hc)
      rw [Nodes.resolveFrom]
      cases hr : nodes.lookup i name with
      | none =>
          refine iff_of_false (by simp only [enoent]; omega) ?_
          rintro ⟨k, hk, _⟩
          rw [(h.lookup_eq_some (hcs name List.mem_cons_self)).mpr hk] at hr
          cases hr
      | some m =>
          have hm := (h.lookup_eq_some (hcs name List.mem_cons_self)).mp hr
          have hne := (h.edge_lt hm).2.1
          by_cases hpass : nodes.passable m
          · simp only [hpass, if_true]
            rw [hrest m]
            constructor
            · rintro ⟨k, hk, hwalk⟩
              exact ⟨m, hm, k, ⟨.inr hpass, hk⟩, hwalk⟩
            · rintro ⟨m', hm', k, hk, hwalk⟩
              obtain rfl := h.tree.functional _ _ _ _ hm hm'
              exact ⟨k, hk.2, hwalk⟩
          · simp only [hpass, Bool.false_eq_true, if_false]
            refine iff_of_false (by simp only [enotdir]; omega) ?_
            rintro ⟨m', hm', k, hk, _⟩
            obtain rfl := h.tree.functional _ _ _ _ hm hm'
            rcases hk.1 with hzero | hp
            · exact hne hzero
            · exact hpass hp

/-- Resolution walks the tree. -/
theorem resolve_iff (hcs : ∀ c ∈ cs, c ≠ dot ∧ c ≠ dotDot) :
    nodes.resolve cs = (j : Int) ↔ Walk nodes.PassEdge 0 cs j := by
  cases cs with
  | nil =>
      simp only [Nodes.resolve, Walk]
      omega
  | cons name rest =>
      rw [Nodes.resolve, h.resolveFrom_iff hcs, Walk]
      simp only [Nodes.PassEdge, true_or, true_and]

theorem passTree : IsTree nodes.PassEdge 0 := h.tree.mono fun _ _ _ hedge => hedge.2

end Tree

/-! ## One entry more -/

namespace Node

/-- The directory with one more entry. -/
def grown (pn : Node) (name : Name) (i : Nat) : Node :=
  { pn with
    links := pn.links + 1
    size := pn.size + 256
    entries := pn.entries ++ [(name, i)] }

/-- The directory with other entries behind `"."` and `".."`, one less. -/
def shrunk (pn : Node) (rest : List (Name × Nat)) : Node :=
  { pn with
    links := pn.links - 1
    size := pn.size - 256
    entries := pn.entries.take 2 ++ rest }

/-- A directory that `a1fs_mkdir` makes in the directory `p`. -/
def emptyDirectory (mode i p b : Nat) : Node where
  mode := mode
  links := 2
  size := 512
  extents := [(b, 1)]
  entries := [(dot, i), (dotDot, p)]

/-- A file that `a1fs_create` makes. -/
def emptyFile (mode : Nat) : Node where
  mode := mode
  links := 1
  size := 0
  extents := []
  entries := []

theorem IsDirAt.children_grown (h : pn.IsDirAt k p) :
    (pn.grown name i).children = pn.children ++ [(name, i)] := by
  have hlen := h.length_entries
  rw [children, grown, List.drop_append_of_le_length (by omega), children]

theorem IsDirAt.grown (h : pn.IsDirAt k p) (hname : ValidName name ∧ name.length < 252)
    (habsent : ∀ j, (name, j) ∉ pn.children) : (pn.grown name i).IsDirAt k p where
  entries := by
    rw [h.children_grown]
    simp only [Node.grown]
    rw [h.entries, List.cons_append, List.cons_append]
  links := by
    simp only [Node.grown]
    rw [h.links, List.length_append, List.length_singleton]
  size := by
    simp only [Node.grown]
    rw [h.size, List.length_append, List.length_singleton, Nat.mul_succ]
  block := h.block
  names := by
    rw [h.children_grown]
    intro e he
    rcases List.mem_append.mp he with hold | hlast
    · exact h.names e hold
    · rw [List.mem_singleton.mp hlast]
      exact hname
  nodup := by
    rw [h.children_grown, List.map_append, List.map_singleton]
    refine List.Nodup.append h.nodup (List.nodup_singleton _) ?_
    intro n hn hlast
    obtain ⟨⟨m, j⟩, he, rfl⟩ := List.mem_map.mp hn
    obtain rfl : m = name := List.mem_singleton.mp hlast
    exact habsent j he

end Node

/-- What a new node needs to take its place under `p`. -/
structure NewNode (L : Layout) (nodes : Nodes) (p i : Nat) (new : Node) : Prop where
  free : nodes i = none
  small : new.Small L i
  children : new.children = []
  apart : ∀ j nd e, nodes j = some nd → e ∈ new.extents → e ∉ nd.extents
  directory : sIsDir new.mode → new.IsDirAt i p

namespace Nodes

/-- The nodes with the new node `i` under the name in `p`. -/
def linked (nodes : Nodes) (p : Nat) (pn : Node) (name : Name) (i : Nat) (new : Node) : Nodes :=
  fun j => if j = i then some new else if j = p then some (pn.grown name i) else nodes j

theorem linked_cases (h : nodes.linked p pn name i new j = some nd) :
    (j = i ∧ nd = new) ∨ (j ≠ i ∧ j = p ∧ nd = pn.grown name i) ∨
      (j ≠ i ∧ j ≠ p ∧ nodes j = some nd) := by
  unfold linked at h
  split at h
  · rename_i hj
    exact .inl ⟨hj, (Option.some.inj h).symm⟩
  · rename_i hj
    split at h
    · rename_i hp
      exact .inr (.inl ⟨hj, hp, (Option.some.inj h).symm⟩)
    · rename_i hp
      exact .inr (.inr ⟨hj, hp, h⟩)

theorem linked_new : nodes.linked p pn name i new i = some new := if_pos rfl

theorem linked_parent (h : p ≠ i) : nodes.linked p pn name i new p = some (pn.grown name i) := by
  rw [linked, if_neg h, if_pos rfl]

theorem linked_other (hi : j ≠ i) (hp : j ≠ p) : nodes.linked p pn name i new j = nodes j := by
  rw [linked, if_neg hi, if_neg hp]

/-- The node of an inode that was in use has the mode it had. -/
theorem linked_mode (name : Name) (new : Node) (hfree : nodes i = none) (hpn : nodes p = some pn) (hj : nodes j = some nd) :
    ∃ nd', nodes.linked p pn name i new j = some nd' ∧ nd'.mode = nd.mode := by
  have hne : j ≠ i := by
    rintro rfl
    rw [hfree] at hj
    cases hj
  by_cases hp : j = p
  · subst hp
    rw [hpn] at hj
    cases hj
    exact ⟨_, linked_parent hne, rfl⟩
  · exact ⟨nd, by rw [linked_other hne hp, hj], rfl⟩

end Nodes

namespace Tree

section Linked

variable (h : Tree L nodes) (hpn : nodes p = some pn) (hdir : sIsDir pn.mode)
  (hnew : NewNode L nodes p i new)
include h hpn hdir hnew

theorem edge_linked : (nodes.linked p pn name i new).Edge j = link nodes.Edge p name i j := by
  obtain ⟨q, hat, _⟩ := h.directory p pn hpn hdir
  have hne : p ≠ i := by
    rintro rfl
    rw [hnew.free] at hpn
    cases hpn
  funext n k
  rw [eq_iff_iff, link]
  by_cases hi : j = i
  · subst hi
    rw [Nodes.edge_iff Nodes.linked_new, hnew.children]
    refine iff_of_false List.not_mem_nil ?_
    rintro (⟨nd, hnd, _⟩ | ⟨heq, _⟩)
    · rw [hnew.free] at hnd
      cases hnd
    · exact hne heq.symm
  · by_cases hp : j = p
    · subst hp
      rw [Nodes.edge_iff (Nodes.linked_parent hne), hat.children_grown, Nodes.edge_iff hpn]
      simp
    · simp only [Nodes.Edge, Nodes.linked_other hi hp, hp, false_and, or_false]

/-- A new node under a new name. -/
theorem linked (hname : ValidName name ∧ name.length < 252) (habsent : ∀ k, ¬ nodes.Edge p name k) :
    Tree L (nodes.linked p pn name i new) := by
  obtain ⟨q, hat, hparent⟩ := h.directory p pn hpn hdir
  have hedge : ∀ j, (nodes.linked p pn name i new).Edge j = _ := fun j =>
    h.edge_linked hpn hdir hnew
  have hnone : ∀ j, (name, j) ∉ pn.children := fun j hj => habsent j ⟨pn, hpn, hj⟩
  have hfree : ∀ j n, ¬ nodes.Edge j n i := by
    intro j n he
    have hlive := h.live j n i he
    rw [hnew.free] at hlive
    cases hlive
  have hne : p ≠ i := by
    rintro rfl
    rw [hnew.free] at hpn
    cases hpn
  constructor
  case blocks_le => exact h.blocks_le
  case last_lt => exact h.last_lt
  case small =>
      intro j nd hnd
      rcases Nodes.linked_cases hnd with ⟨rfl, rfl⟩ | ⟨_, rfl, rfl⟩ | ⟨_, _, hold⟩
      · exact hnew.small
      · have hsmall := h.small j pn hpn
        obtain ⟨b, hb, _, _⟩ := h.exists_block hpn hdir
        have hlen := h.length_entries hpn
        refine ⟨hsmall.inode_lt, hsmall.inode_small, hsmall.extents, ?_, fun hfile => ?_⟩
        · simp only [Node.grown]
          rw [hat.size, hb, List.length_singleton]
          omega
        · exact absurd hdir hfile
      · exact h.small j nd hold
  case apart =>
      intro j j' nd nd' e hnd hnd' he he'
      have hold : ∀ {m nd}, nodes.linked p pn name i new m = some nd → e ∈ nd.extents → m ≠ i →
          ∃ nd, nodes m = some nd ∧ e ∈ nd.extents := by
        intro m nd hm hmem hmi
        rcases Nodes.linked_cases hm with ⟨heq, _⟩ | ⟨_, rfl, rfl⟩ | ⟨_, _, hsame⟩
        · exact absurd heq hmi
        · exact ⟨pn, hpn, hmem⟩
        · exact ⟨nd, hsame, hmem⟩
      by_cases hj : j = i
      · by_cases hj' : j' = i
        · rw [hj, hj']
        · subst hj
          obtain ⟨nd₀, hnd₀, hmem⟩ := hold hnd' he' hj'
          rw [Nodes.linked_new] at hnd
          cases hnd
          exact absurd hmem (hnew.apart j' nd₀ e hnd₀ he)
      · obtain ⟨nd₀, hnd₀, hmem⟩ := hold hnd he hj
        by_cases hj' : j' = i
        · subst hj'
          rw [Nodes.linked_new] at hnd'
          cases hnd'
          exact absurd hmem (hnew.apart j nd₀ e hnd₀ he')
        · obtain ⟨nd₁, hnd₁, hmem'⟩ := hold hnd' he' hj'
          exact h.apart j j' nd₀ nd₁ e hnd₀ hnd₁ hmem hmem'
  case directory =>
      intro j nd hnd hjdir
      have hmono : ∀ {r n}, nodes.Edge r n j → (nodes.linked p pn name i new).Edge r n j := by
        intro r n he
        rw [hedge]
        exact .inl he
      rcases Nodes.linked_cases hnd with ⟨rfl, rfl⟩ | ⟨_, rfl, rfl⟩ | ⟨_, _, hold⟩
      · refine ⟨p, hnew.directory hjdir, .inr ⟨name, ?_⟩⟩
        rw [hedge]
        exact .inr ⟨rfl, rfl, rfl⟩
      · exact ⟨q, hat.grown hname hnone, hparent.imp_right (Exists.imp fun _ => hmono)⟩
      · obtain ⟨r, hr, hrparent⟩ := h.directory j nd hold hjdir
        exact ⟨r, hr, hrparent.imp_right (Exists.imp fun _ => hmono)⟩
  case root =>
      obtain ⟨nd, hnd, hroot⟩ := h.root
      obtain ⟨nd', hnd', hmode⟩ := Nodes.linked_mode name new hnew.free hpn hnd
      exact ⟨nd', hnd', hmode ▸ hroot⟩
  case live =>
      intro j n k he
      rw [hedge] at he
      rcases he with hold | ⟨_, _, rfl⟩
      · obtain ⟨nd, hnd⟩ := Option.isSome_iff_exists.mp (h.live j n k hold)
        obtain ⟨nd', hnd', _⟩ := Nodes.linked_mode name new hnew.free hpn hnd
        rw [hnd']
        rfl
      · rw [Nodes.linked_new]
        rfl
  case tree =>
      rw [show (nodes.linked p pn name i new).Edge = link nodes.Edge p name i from funext hedge]
      refine h.tree.link hfree ?_ habsent
      rintro rfl
      obtain ⟨nd, hnd, _⟩ := h.root
      rw [hnew.free] at hnd
      cases hnd

end Linked

end Tree

/-! ## The new nodes -/

section NewNodes

variable {mode : Nat}

/-- An empty directory in a free inode and a free block. -/
theorem newNode_directory (hdir : sIsDir mode) (hi : i < 8 ∧ i < L.inodes)
    (hb : b < 8 ∧ b < L.blocks) (hfree : nodes i = none)
    (hunused : ∀ j nd, nodes j = some nd → (b, 1) ∉ nd.extents) :
    NewNode L nodes p i (Node.emptyDirectory mode i p b) where
  free := hfree
  small := ⟨hi.2, hi.1, .inr ⟨b, rfl, hb⟩, show 512 ≤ 4096 * 1 by decide,
    fun hfile => absurd hdir hfile⟩
  children := rfl
  apart := by
    intro j nd e hnd he
    rw [List.mem_singleton.mp he]
    exact hunused j nd hnd
  directory := fun _ => ⟨rfl, rfl, rfl, List.cons_ne_nil _ _, fun _ he => absurd he List.not_mem_nil,
    List.nodup_nil⟩

/-- An empty file in a free inode. -/
theorem newNode_file (hdir : ¬ sIsDir mode) (hi : i < 8 ∧ i < L.inodes) (hfree : nodes i = none) :
    NewNode L nodes p i (Node.emptyFile mode) where
  free := hfree
  small := ⟨hi.2, hi.1, .inl rfl, le_refl _, fun _ => rfl⟩
  children := rfl
  apart := fun _ _ _ _ he => absurd he List.not_mem_nil
  directory := fun hdir' => absurd hdir' hdir

end NewNodes

/-! ## One entry less -/

namespace Nodes

/-- The nodes without `i`, and with other entries behind `"."` and `".."` in `p`. -/
def unlinked (nodes : Nodes) (p : Nat) (pn : Node) (rest : List (Name × Nat)) (i : Nat) : Nodes :=
  fun j => if j = i then none else if j = p then some (pn.shrunk rest) else nodes j

variable {rest : List (Name × Nat)}

theorem unlinked_cases (h : nodes.unlinked p pn rest i j = some nd) :
    j ≠ i ∧ ((j = p ∧ nd = pn.shrunk rest) ∨ (j ≠ p ∧ nodes j = some nd)) := by
  unfold unlinked at h
  split at h
  · cases h
  · rename_i hj
    split at h
    · rename_i hp
      exact ⟨hj, .inl ⟨hp, (Option.some.inj h).symm⟩⟩
    · rename_i hp
      exact ⟨hj, .inr ⟨hp, h⟩⟩

theorem unlinked_gone : nodes.unlinked p pn rest i i = none := if_pos rfl

theorem unlinked_parent (h : p ≠ i) : nodes.unlinked p pn rest i p = some (pn.shrunk rest) := by
  rw [unlinked, if_neg h, if_pos rfl]

theorem unlinked_other (hi : j ≠ i) (hp : j ≠ p) : nodes.unlinked p pn rest i j = nodes j := by
  rw [unlinked, if_neg hi, if_neg hp]

/-- The other inodes in use keep their modes. -/
theorem unlinked_mode (rest : List (Name × Nat)) (hpn : nodes p = some pn) (hj : nodes j = some nd) (hi : j ≠ i) :
    ∃ nd', nodes.unlinked p pn rest i j = some nd' ∧ nd'.mode = nd.mode := by
  by_cases hp : j = p
  · subst hp
    rw [hpn] at hj
    cases hj
    exact ⟨_, unlinked_parent hi, rfl⟩
  · exact ⟨nd, by rw [unlinked_other hi hp, hj], rfl⟩

end Nodes

namespace Tree

section Unlinked

variable {rest : List (Name × Nat)} (h : Tree L nodes) (hpn : nodes p = some pn)
  (hdir : sIsDir pn.mode) (hedge : nodes.Edge p name i) (hempty : ∀ n k, ¬ nodes.Edge i n k)
  (hrest : rest.Perm (pn.children.erase (name, i)))
include h hpn hdir hedge hempty hrest

omit hempty in
theorem children_shrunk : (pn.shrunk rest).children = rest ∧ rest.length + 1 = pn.children.length ∧
    ∀ n k, (n, k) ∈ rest ↔ (n, k) ∈ pn.children ∧ n ≠ name := by
  obtain ⟨q, hat, _⟩ := h.directory p pn hpn hdir
  have hmem := (Nodes.edge_iff hpn).mp hedge
  have hlen := List.length_erase_add_one hmem
  rw [← hrest.length_eq] at hlen
  refine ⟨?_, hlen, fun n k => ?_⟩
  · have htwo : (pn.entries.take 2).length = 2 := by
      rw [List.length_take, hat.length_entries]
      omega
    rw [Node.children, Node.shrunk, List.drop_append_of_le_length htwo.ge,
      List.drop_of_length_le htwo.le, List.nil_append]
  · rw [hrest.mem_iff, hat.nodup.of_map.mem_erase_iff, ne_eq, Prod.mk.injEq, and_comm]
    refine and_congr_right fun hnk => not_congr ⟨And.left, ?_⟩
    rintro rfl
    exact ⟨rfl, h.tree.functional p n k i ⟨pn, hpn, hnk⟩ hedge⟩

theorem edge_unlinked : (nodes.unlinked p pn rest i).Edge j = unlink nodes.Edge p name j := by
  obtain ⟨hchildren, _, hmem⟩ := h.children_shrunk hpn hdir hedge hrest
  have hne : p ≠ i := by
    rintro rfl
    exact hempty name p hedge
  funext n k
  rw [eq_iff_iff, unlink]
  by_cases hi : j = i
  · subst hi
    refine iff_of_false ?_ fun he => hempty n k he.1
    rintro ⟨nd, hnd, _⟩
    rw [Nodes.unlinked_gone] at hnd
    cases hnd
  · by_cases hp : j = p
    · subst hp
      rw [Nodes.edge_iff (Nodes.unlinked_parent hne), hchildren, Nodes.edge_iff hpn, hmem]
      simp
    · simp only [Nodes.Edge, Nodes.unlinked_other hi hp, hp, false_and, not_false_iff, and_true]

/-- An entry less, and its node with it. -/
theorem unlinked : Tree L (nodes.unlinked p pn rest i) := by
  obtain ⟨q, hat, hparent⟩ := h.directory p pn hpn hdir
  obtain ⟨hchildren, hlen, hmem⟩ := h.children_shrunk hpn hdir hedge hrest
  have hedges : ∀ j, (nodes.unlinked p pn rest i).Edge j = _ := fun j =>
    h.edge_unlinked hpn hdir hedge hempty hrest (j := j)
  have hne : p ≠ i := by
    rintro rfl
    exact hempty name p hedge
  -- The other nodes keep their parents.
  have hkeeps : ∀ {r n j}, j ≠ i → nodes.Edge r n j →
      (nodes.unlinked p pn rest i).Edge r n j := by
    intro r n j hj he
    rw [hedges]
    refine ⟨he, ?_⟩
    rintro ⟨rfl, rfl⟩
    exact hj (h.tree.functional r n j i he hedge)
  constructor
  case blocks_le => exact h.blocks_le
  case last_lt => exact h.last_lt
  case small =>
      intro j nd hnd
      rcases Nodes.unlinked_cases hnd with ⟨_, ⟨rfl, rfl⟩ | ⟨_, hold⟩⟩
      · have hsmall := h.small j pn hpn
        refine ⟨hsmall.inode_lt, hsmall.inode_small, hsmall.extents, ?_, fun hfile => ?_⟩
        · have hle := hsmall.size_le
          simp only [Node.shrunk]
          omega
        · exact absurd hdir hfile
      · exact h.small j nd hold
  case apart =>
      intro j j' nd nd' e hnd hnd' he he'
      have hold : ∀ {m nd}, nodes.unlinked p pn rest i m = some nd → e ∈ nd.extents →
          ∃ nd, nodes m = some nd ∧ e ∈ nd.extents := by
        intro m nd hm hmem
        rcases Nodes.unlinked_cases hm with ⟨_, ⟨rfl, rfl⟩ | ⟨_, hsame⟩⟩
        · exact ⟨pn, hpn, hmem⟩
        · exact ⟨nd, hsame, hmem⟩
      obtain ⟨nd₀, hnd₀, hmem₀⟩ := hold hnd he
      obtain ⟨nd₁, hnd₁, hmem₁⟩ := hold hnd' he'
      exact h.apart j j' nd₀ nd₁ e hnd₀ hnd₁ hmem₀ hmem₁
  case directory =>
      intro j nd hnd hjdir
      rcases Nodes.unlinked_cases hnd with ⟨hj, ⟨rfl, rfl⟩ | ⟨_, hold⟩⟩
      · refine ⟨q, ?_, hparent.imp_right (Exists.imp fun _ => hkeeps hj)⟩
        have hentries : (pn.shrunk rest).entries = (dot, j) :: (dotDot, q) :: rest := by
          simp only [Node.shrunk]
          rw [hat.entries]
          rfl
        have hcount : (pn.shrunk rest).entries.length + 1 = pn.entries.length := by
          rw [hentries, hat.length_entries, ← hlen]
          rfl
        constructor
        case entries => rw [hchildren, hentries]
        case links =>
            have hlinks : (pn.shrunk rest).links = pn.links - 1 := rfl
            rw [hlinks, hat.links]
            omega
        case size =>
            have hsize : (pn.shrunk rest).size = pn.size - 256 := rfl
            rw [hsize, hat.size]
            omega
        case block => exact hat.block
        case names =>
            rw [hchildren]
            exact fun e he => hat.names e ((hmem e.1 e.2).mp he).1
        case nodup =>
            rw [hchildren, (hrest.map Prod.fst).nodup_iff]
            exact hat.nodup.sublist (List.erase_sublist.map _)
      · obtain ⟨r, hr, hrparent⟩ := h.directory j nd hold hjdir
        exact ⟨r, hr, hrparent.imp_right (Exists.imp fun _ => hkeeps hj)⟩
  case root =>
      obtain ⟨nd, hnd, hroot⟩ := h.root
      have hzero : (0 : Nat) ≠ i := (h.edge_lt hedge).2.1.symm
      obtain ⟨nd', hnd', hmode⟩ := Nodes.unlinked_mode rest hpn hnd hzero
      exact ⟨nd', hnd', hmode ▸ hroot⟩
  case live =>
      intro j n k he
      rw [hedges] at he
      obtain ⟨nd, hnd⟩ := Option.isSome_iff_exists.mp (h.live j n k he.1)
      have hk : k ≠ i := by
        rintro rfl
        exact he.2 (h.tree.unique j p n name k he.1 hedge)
      obtain ⟨nd', hnd', _⟩ := Nodes.unlinked_mode rest hpn hnd hk
      rw [hnd']
      rfl
  case tree =>
      rw [show (nodes.unlinked p pn rest i).Edge = unlink nodes.Edge p name from funext hedges]
      exact h.tree.unlink

end Unlinked

end Tree

/-! ## Another size -/

namespace Nodes

/-- The nodes with another contents of inode `i`. -/
def updated (nodes : Nodes) (i : Nat) (nd : Node) : Nodes :=
  fun j => if j = i then some nd else nodes j

theorem updated_self : nodes.updated i nd i = some nd := if_pos rfl

theorem updated_other (h : j ≠ i) : nodes.updated i nd j = nodes j := if_neg h

theorem updated_cases (h : nodes.updated i nd j = some pn) :
    (j = i ∧ pn = nd) ∨ (j ≠ i ∧ nodes j = some pn) := by
  unfold updated at h
  split at h
  · rename_i hj
    exact .inl ⟨hj, (Option.some.inj h).symm⟩
  · rename_i hj
    exact .inr ⟨hj, h⟩

end Nodes

namespace Tree

section Updated

variable (h : Tree L nodes) (hnd : nodes i = some nd) (hfile : ¬ sIsDir nd.mode)
  (hmode : new.mode = nd.mode) (hsmall : new.Small L i)
include h hnd hfile hmode hsmall

theorem edge_updated : (nodes.updated i new).Edge = nodes.Edge := by
  funext j n k
  rw [eq_iff_iff]
  by_cases hj : j = i
  · subst hj
    have hnew : new.children = [] := by
      rw [Node.children, hsmall.file (hmode ▸ hfile), List.drop_nil]
    have hold : nd.children = [] := by
      rw [Node.children, (h.small j nd hnd).file hfile, List.drop_nil]
    rw [Nodes.edge_iff Nodes.updated_self, Nodes.edge_iff hnd, hnew, hold]
  · simp only [Nodes.Edge, Nodes.updated_other hj]

/-- A file with other contents. -/
theorem updated (hapart : ∀ j nd e, j ≠ i → nodes j = some nd → e ∈ new.extents → e ∉ nd.extents) :
    Tree L (nodes.updated i new) := by
  have hedge := h.edge_updated hnd hfile hmode hsmall
  constructor
  case blocks_le => exact h.blocks_le
  case last_lt => exact h.last_lt
  case small =>
      intro j nd' hnd'
      rcases Nodes.updated_cases hnd' with ⟨rfl, rfl⟩ | ⟨_, hold⟩
      · exact hsmall
      · exact h.small j nd' hold
  case apart =>
      intro j j' nd₀ nd₁ e hnd₀ hnd₁ he₀ he₁
      rcases Nodes.updated_cases hnd₀ with ⟨rfl, rfl⟩ | ⟨hj, hold₀⟩
      · rcases Nodes.updated_cases hnd₁ with ⟨rfl, _⟩ | ⟨hj', hold₁⟩
        · rfl
        · exact absurd he₁ (hapart j' nd₁ e hj' hold₁ he₀)
      · rcases Nodes.updated_cases hnd₁ with ⟨rfl, rfl⟩ | ⟨_, hold₁⟩
        · exact absurd he₀ (hapart j nd₀ e hj hold₀ he₁)
        · exact h.apart j j' nd₀ nd₁ e hold₀ hold₁ he₀ he₁
  case directory =>
      intro j nd' hnd' hdir
      rcases Nodes.updated_cases hnd' with ⟨rfl, rfl⟩ | ⟨_, hold⟩
      · exact absurd (hmode ▸ hdir) hfile
      · rw [hedge]
        exact h.directory j nd' hold hdir
  case root =>
      obtain ⟨root, hroot, hdir⟩ := h.root
      refine ⟨root, ?_, hdir⟩
      rw [Nodes.updated_other, hroot]
      rintro rfl
      rw [hnd] at hroot
      cases hroot
      exact hfile hdir
  case live =>
      intro j n k he
      rw [hedge] at he
      by_cases hk : k = i
      · rw [hk, Nodes.updated_self]
        rfl
      · rw [Nodes.updated_other hk]
        exact h.live j n k he
  case tree =>
      rw [hedge]
      exact h.tree

end Updated

end Tree

end UoftOs.FileSystem
