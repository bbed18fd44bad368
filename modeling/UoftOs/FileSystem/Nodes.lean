import UoftOs.FileSystem.Layout
import UoftOs.FileSystem.Paths

/-!
# The nodes of a file system

A node is the contents of an inode: its record, its extents and, for a directory,
its entries. An image holds a family of nodes when each stands where the layout
says, and path resolution can then be computed from the nodes alone.
-/

namespace UoftOs.FileSystem

open Lib.ByteMemory

/-- The contents of an inode. -/
structure Node where
  mode : Nat
  links : Nat
  size : Nat
  extents : List (Nat × Nat)
  entries : List (Name × Nat)

/-- The inodes in use. -/
abbrev Nodes := Nat → Option Node

namespace Node

/-- The data blocks of the extents, in order. -/
def blocks (nd : Node) : List Nat := nd.extents.flatMap fun e => List.range' e.1 e.2

/-- The directory slot with the given position. -/
def slotAt (nd : Node) (L : Layout) (k : Nat) : Int :=
  L.blockAt (nd.blocks.getD (k / 16) 0) + 256 * (k % 16 : Nat)

/-- The last data block. -/
def lastBlock (nd : Node) : Nat := nd.blocks.getLastD 0

/-- Extents that can be addressed, and entries that fit in them. -/
structure Ok (nd : Node) (L : Layout) : Prop where
  extents_le : nd.extents.length ≤ 512
  extents_pos : ∀ e ∈ nd.extents, 0 < e.2
  blocks_lt : ∀ b ∈ nd.blocks, L.data + b < 524288
  entries_le : nd.entries.length ≤ 512
  entries_fit : nd.entries.length ≤ 16 * nd.blocks.length
  names : ∀ e ∈ nd.entries, ZeroFree e.1 ∧ e.1.length < 252
  size_dir : sIsDir nd.mode → nd.size = 256 * nd.entries.length
  not_dir : ¬ sIsDir nd.mode → nd.entries = []

/-- Inode `i` of the image has the contents `nd`. -/
structure At (nd : Node) (L : Layout) (img : Image) (i : Nat) : Prop where
  mode : inodeMode img (L.recordAt i) = nd.mode
  links : inodeLinks img (L.recordAt i) = nd.links
  size : inodeSize img (L.recordAt i) = nd.size
  number : inoNumber img (L.recordAt i) = i
  count : extentCount img (L.recordAt i) = nd.extents.length
  extents : ∀ k (hk : k < nd.extents.length),
    extentStart img (L.extentAt i) k = nd.extents[k].1 ∧
      extentLength img (L.extentAt i) k = nd.extents[k].2
  slots : ∀ k (hk : k < nd.entries.length),
    StringAt img (nd.slotAt L k + 4) nd.entries[k].1 ∧
      dentryIno img (nd.slotAt L k) = nd.entries[k].2

end Node

/-- Inodes of the layout, a root directory, and entries that name inodes in use. -/
structure Closed (nodes : Nodes) (L : Layout) : Prop where
  inode_lt : ∀ i nd, nodes i = some nd → i < L.inodes
  ok : ∀ i nd, nodes i = some nd → nd.Ok L
  entries : ∀ i nd, nodes i = some nd → ∀ e ∈ nd.entries, (nodes e.2).isSome
  root : ∃ nd, nodes 0 = some nd ∧ sIsDir nd.mode

/-- The image holds the nodes. -/
structure Holds (L : Layout) (img : Image) (nodes : Nodes) : Prop where
  of : L.Of img
  nodeAt : ∀ i nd, nodes i = some nd → nd.At L img i

/-! ## Resolution over the nodes -/

namespace Nodes

/-- The entries of a directory. -/
def entriesOf (nodes : Nodes) (i : Nat) : List (Name × Nat) :=
  match nodes i with
  | some nd => nd.entries
  | none => []

/-- The last entry with the given name. -/
def lookup (nodes : Nodes) (i : Nat) (name : Name) : Option Nat :=
  (nodes.entriesOf i).foldl (fun r e => if e.1 = name then some e.2 else r) none

/-- A directory that `path_inode` passes through. -/
def passable (nodes : Nodes) (i : Nat) : Bool :=
  match nodes i with
  | some nd => plainDirectory nd.mode
  | none => false

/-- The outcome of a resolution as `path_inode` returns it. -/
def result : Option Nat → Int
  | some i => i
  | none => -enoent

/-- Resolution of a component and those behind it, from a directory. -/
def resolveFrom (nodes : Nodes) : Nat → Name → List Name → Int
  | i, name, [] => result (nodes.lookup i name)
  | i, name, next :: rest =>
      match nodes.lookup i name with
      | none => -enoent
      | some j => if nodes.passable j then resolveFrom nodes j next rest else -enotdir

/-- Resolution of a component list. -/
def resolve (nodes : Nodes) : List Name → Int
  | [] => 0
  | name :: rest => nodes.resolveFrom 0 name rest

end Nodes

/-! ## Lists of blocks and slots -/

section Lists

variable {α β : Type*}

theorem flatMap_range_of_getElem {l : List α} {f : Nat → List β} {g : α → List β}
    (h : ∀ k (hk : k < l.length), f k = g l[k]) :
    (List.range l.length).flatMap f = l.flatMap g := by
  induction l generalizing f with
  | nil => rfl
  | cons a l ih =>
      have hrest : (List.range l.length).flatMap (fun k => f (k + 1)) = l.flatMap g := by
        apply ih
        intro k hk
        exact h (k + 1) (by simpa using hk)
      rw [List.length_cons, List.range_succ_eq_map, List.flatMap_cons, List.flatMap_map, hrest,
        h 0 (by simp), List.flatMap_cons, List.getElem_cons_zero]

/-- The slots of a list of blocks, by their position. -/
theorem flatMap_slots (bs : List Nat) (f : Nat → Nat → β) :
    bs.flatMap (fun b => (List.range 16).map (f b)) =
      (List.range (16 * bs.length)).map fun k => f (bs.getD (k / 16) 0) (k % 16) := by
  induction bs with
  | nil => rfl
  | cons b bs ih =>
      rw [List.flatMap_cons, ih, List.length_cons, Nat.mul_succ, Nat.add_comm, List.range_add,
        List.map_append, List.map_map]
      congr 1
      apply List.map_congr_left
      intro k _
      have hdiv : (16 + k) / 16 = k / 16 + 1 := by omega
      have hmod : (16 + k) % 16 = k % 16 := by omega
      rw [Function.comp_apply, hdiv, hmod, List.getD_cons_succ]

theorem mapM_range_of_getElem {γ ε : Type*} {l : List α} {f : Nat → γ} {read : γ → Except ε β}
    {g : α → β} (h : ∀ k (hk : k < l.length), read (f k) = .ok (g l[k])) :
    ((List.range l.length).map f).mapM read = .ok (l.map g) := by
  induction l generalizing f with
  | nil => rfl
  | cons a l ih =>
      have hrest : ((List.range l.length).map fun k => f (k + 1)).mapM read = .ok (l.map g) := by
        apply ih
        intro k hk
        exact h (k + 1) (by simpa using hk)
      have hfirst : read (f 0) = .ok (g a) := h 0 (by simp)
      have hmap : ((List.range l.length).map Nat.succ).map f =
          (List.range l.length).map fun k => f (k + 1) := by
        rw [List.map_map]
        rfl
      rw [List.length_cons, List.range_succ_eq_map, List.map_cons, List.mapM_cons, hmap, hrest,
        hfirst]
      rfl

end Lists

/-! ## Reading a node -/

variable {L : Layout} {img img' : Image} {nodes : Nodes} {nd : Node} {i j k : Nat}

theorem extentBlocks_eq {e : Int} {s c : Nat} (hs : extentStart img e k = s)
    (hc : extentLength img e k = c) (h : s + c < 2147483648) :
    extentBlocks img e k = (List.range' s c).map fun (b : Nat) => (b : Int) := by
  have hstart : int32 (s : Int) = s := int32_of_bounds (by omega) (by omega)
  have hcount : int32 (c : Int) = c := int32_of_bounds (by omega) (by omega)
  have hsum : int32 ((c : Int) + s) = c + s := int32_of_bounds (by omega) (by omega)
  rw [extentBlocks, hs, hc, hstart, hcount, hsum, show ((c : Int) + s - s).toNat = c by omega,
    List.range'_eq_map_range, List.map_map]
  apply List.map_congr_left
  intro b _
  simp

namespace Node

theorem Ok.extent_lt (h : nd.Ok L) {e : Nat × Nat} (he : e ∈ nd.extents) :
    L.data + e.1 + e.2 ≤ 524288 := by
  have hpos := h.extents_pos e he
  have hlast : e.1 + (e.2 - 1) ∈ nd.blocks :=
    List.mem_flatMap.mpr ⟨e, he, List.mem_range'_1.mpr (by omega)⟩
  have hlt := h.blocks_lt _ hlast
  omega

theorem At.fileBlocks (h : nd.At L img i) (hok : nd.Ok L) :
    fileBlocks img (L.extentAt i) nd.extents.length = nd.blocks.map fun (b : Nat) => (b : Int) := by
  rw [FileSystem.fileBlocks, Int.toNat_natCast, blocks, List.map_flatMap]
  apply flatMap_range_of_getElem
  intro k hk
  have hlt := hok.extent_lt (List.getElem_mem hk)
  exact extentBlocks_eq (h.extents k hk).1 (h.extents k hk).2 (by omega)

theorem extents_ne_nil (h : nd.blocks ≠ []) : nd.extents ≠ [] := by
  intro hnil
  rw [blocks, hnil] at h
  exact h rfl

/-- The last extent ends with the last block. -/
theorem At.lastExtent (h : nd.At L img i) (hok : nd.Ok L) (hne : nd.extents ≠ []) :
    ∃ s c : Nat, extentStart img (L.extentAt i) (nd.extents.length - 1) = s ∧
      extentLength img (L.extentAt i) (nd.extents.length - 1) = c ∧ s + c = nd.lastBlock + 1 ∧
        nd.lastBlock ∈ nd.blocks := by
  obtain ⟨init, e, hlast⟩ := (List.eq_nil_or_concat nd.extents).resolve_left hne
  have hlen : nd.extents.length = init.length + 1 := by simp [hlast]
  have hlt : init.length < nd.extents.length := by omega
  obtain ⟨hstart, hlength⟩ := h.extents init.length hlt
  have hget : nd.extents[init.length] = e := by simp [hlast]
  have hpos : 0 < e.2 := hok.extents_pos e (by simp [hlast])
  have hrange : List.range' e.1 e.2 = List.range' e.1 (e.2 - 1) ++ [e.1 + (e.2 - 1)] := by
    obtain ⟨n, hn⟩ : ∃ n, e.2 = n + 1 := ⟨e.2 - 1, by omega⟩
    rw [hn, Nat.add_sub_cancel, List.range'_concat, Nat.one_mul]
  have hblocks : nd.blocks = (init.flatMap (fun e => List.range' e.1 e.2) ++
      List.range' e.1 (e.2 - 1)) ++ [e.1 + (e.2 - 1)] := by
    rw [blocks, hlast, List.concat_eq_append, List.flatMap_append, List.flatMap_singleton, hrange,
      List.append_assoc]
  have hlastBlock : nd.lastBlock = e.1 + (e.2 - 1) := by
    rw [lastBlock, hblocks, List.getLastD_concat]
  rw [hget] at hstart hlength
  refine ⟨e.1, e.2, ?_, ?_, by omega, ?_⟩
  · rw [hlen, ← hstart]
    congr 1
    omega
  · rw [hlen, ← hlength]
    congr 1
    omega
  · rw [hlastBlock, hblocks]
    exact List.mem_append_right _ List.mem_cons_self

/-- The slots that `helper` copies are those of the entries. -/
theorem At.directorySlots (h : nd.At L img i) (hok : nd.Ok L) (hof : L.Of img)
    (hi : i < L.inodes) (hdir : sIsDir nd.mode) :
    directorySlots img (L.recordAt i) = (List.range nd.entries.length).map (nd.slotAt L) := by
  have hlen := hok.entries_le
  have hfit := hok.entries_fit
  have hcount : int32 ((nd.size / 256 : Nat) : Int) = nd.entries.length := by
    rw [hok.size_dir hdir, Nat.mul_div_cancel_left _ (by omega)]
    exact int32_of_bounds (by omega) (by omega)
  have hslots : ∀ b ∈ nd.blocks, blockSlots img (b : Int) =
      (List.range 16).map fun (x : Nat) => L.blockAt b + 256 * (x : Int) := by
    intro b hb
    rw [blockSlots, hof.dataAddr (hok.blocks_lt b hb)]
  have hall : (nd.blocks.map fun (b : Nat) => (b : Int)).flatMap (blockSlots img) =
      (List.range (16 * nd.blocks.length)).map (nd.slotAt L) := by
    rw [List.flatMap_map, List.flatMap_congr hslots]
    exact flatMap_slots nd.blocks fun b x => L.blockAt b + 256 * (x : Int)
  rw [FileSystem.directorySlots, h.size, h.number, h.count, hof.extentAddr (by omega),
    h.fileBlocks hok, hcount, hall, Int.toNat_natCast, ← List.map_take, List.take_range,
    Nat.min_eq_left hfit]

/-- The two arrays of `helper` hold the entries. -/
theorem At.helperEntries (h : nd.At L img i) (hok : nd.Ok L) (hof : L.Of img)
    (hi : i < L.inodes) (hdir : sIsDir nd.mode) (hinos : ∀ e ∈ nd.entries, e.2 < L.inodes) :
    helperEntries img (L.recordAt i) =
      .ok (nd.entries.map fun e => (e.1, (e.2 : Int))) := by
  have hlen := hok.entries_le
  have hinodes := L.inodes_lt
  rw [FileSystem.helperEntries, h.directorySlots hok hof hi hdir, if_neg (by simpa using hlen)]
  apply mapM_range_of_getElem
  intro k hk
  obtain ⟨hname, hino⟩ := h.slots k hk
  obtain ⟨hfree, hshort⟩ := hok.names _ (List.getElem_mem hk)
  have hlt := hinos _ (List.getElem_mem hk)
  rw [readDentry, hname.cstr_bytesAt hfree hshort, hino]
  simp only
  rw [int32_of_bounds (by omega) (by omega)]

/-- The extents that stand in an image which has them from another one. -/
theorem At.extents_congr (h : nd.At L img i)
    (hextents : AgreeOn img' img (L.extentAt i) (L.extentAt i + 8 * nd.extents.length))
    {k : Nat} (hk : k < nd.extents.length) :
    extentStart img' (L.extentAt i) k = nd.extents[k].1 ∧
      extentLength img' (L.extentAt i) k = nd.extents[k].2 := by
  obtain ⟨hstart, hlength⟩ := h.extents k hk
  rw [← hstart, ← hlength]
  exact ⟨u32_congr (hextents.mono (by omega) (by omega)),
    u32_congr (hextents.mono (by omega) (by omega))⟩

/-- A node depends on its record, its extents and its slots. -/
theorem At.congr (h : nd.At L img i) (hok : nd.Ok L)
    (hrecord : AgreeOn img' img (L.recordAt i) (L.recordAt i + 64))
    (hextents : AgreeOn img' img (L.extentAt i) (L.extentAt i + 8 * nd.extents.length))
    (hslots : ∀ k < nd.entries.length, AgreeOn img' img (nd.slotAt L k) (nd.slotAt L k + 256)) :
    nd.At L img' i := by
  constructor
  · rw [← h.mode]
    exact u32_congr (hrecord.mono (by omega) (by omega))
  · rw [← h.links]
    exact u32_congr (hrecord.mono (by omega) (by omega))
  · rw [← h.size]
    exact u64_congr (hrecord.mono (by omega) (by omega))
  · rw [← h.number]
    exact i32_congr (hrecord.mono (by omega) (by omega))
  · rw [← h.count]
    exact i32_congr (hrecord.mono (by omega) (by omega))
  · exact fun k hk => h.extents_congr hextents hk
  · intro k hk
    obtain ⟨hname, hino⟩ := h.slots k hk
    obtain ⟨_, hshort⟩ := hok.names _ (List.getElem_mem hk)
    refine ⟨hname.congr ((hslots k hk).mono (by omega) (by omega)), ?_⟩
    rw [← hino]
    exact u32_congr ((hslots k hk).mono (by omega) (by omega))

end Node

/-- The nodes stand behind the bitmaps. -/
theorem Holds.congr (h : Holds L img nodes) (hclosed : Closed nodes L) (hof : L.Of img')
    (same : ∀ x, 4096 * (L.inodeTable : Int) ≤ x → img' x = img x) : Holds L img' nodes := by
  have hextents := L.extents_lt
  have hdata := L.extentBlocks
  refine ⟨hof, fun i nd hnd => (h.nodeAt i nd hnd).congr (hclosed.ok i nd hnd) ?_ ?_ ?_⟩
  · intro x hlo hhi
    unfold Layout.recordAt at hlo
    exact same x (by omega)
  · intro x hlo hhi
    unfold Layout.extentAt at hlo
    exact same x (by omega)
  · intro k hk x hlo hhi
    unfold Node.slotAt Layout.blockAt at hlo
    exact same x (by omega)

/-! ## Path resolution -/

/-- `lastMatch` over the entries of a directory. -/
theorem lastMatch_eq (name : Name) (entries : List (Name × Nat)) :
    lastMatch name (entries.map fun e => (e.1, (e.2 : Int))) =
      Nodes.result (entries.foldl (fun r e => if e.1 = name then some e.2 else r) none) := by
  have hgen : ∀ r : Option Nat, (entries.map fun e => (e.1, (e.2 : Int))).foldl
      (fun result entry => if entry.1 = name then entry.2 else result) (Nodes.result r) =
      Nodes.result (entries.foldl (fun r e => if e.1 = name then some e.2 else r) r) := by
    induction entries with
    | nil =>
        intro r
        rfl
    | cons e entries ih =>
        intro r
        rw [List.map_cons, List.foldl_cons, List.foldl_cons, ← ih]
        congr 1
        split <;> rfl
  exact hgen none

theorem Nodes.entriesOf_eq (h : nodes i = some nd) : nodes.entriesOf i = nd.entries := by
  rw [entriesOf, h]

/-- A found inode is named by an entry. -/
theorem Nodes.mem_of_lookup {name : Name} (h : nodes.lookup i name = some j) :
    (name, j) ∈ nodes.entriesOf i := by
  have hgen : ∀ (entries : List (Name × Nat)) (r : Option Nat),
      entries.foldl (fun r e => if e.1 = name then some e.2 else r) r = some j →
      (name, j) ∈ entries ∨ r = some j := by
    intro entries
    induction entries with
    | nil =>
        intro r hr
        exact .inr hr
    | cons e entries ih =>
        intro r hr
        rw [List.foldl_cons] at hr
        rcases ih _ hr with hmem | heq
        · exact .inl (List.mem_cons_of_mem _ hmem)
        · split at heq
          · rename_i hname
            cases heq
            rw [← hname]
            exact .inl List.mem_cons_self
          · exact .inr heq
  rcases hgen _ none h with hmem | habsurd
  · exact hmem
  · cases habsurd

section Resolution

variable (hold : Holds L img nodes) (hclosed : Closed nodes L)
include hclosed

theorem Closed.isSome_of_lookup {name : Name} (h : nodes.lookup i name = some j) :
    (nodes j).isSome := by
  have hmem := Nodes.mem_of_lookup h
  unfold Nodes.entriesOf at hmem
  split at hmem
  · rename_i nd hnd
    exact hclosed.entries i nd hnd _ hmem
  · cases hmem

theorem Closed.entry_lt (h : nodes i = some nd) : ∀ e ∈ nd.entries, e.2 < L.inodes := by
  intro e he
  obtain ⟨nd', hnd'⟩ := Option.isSome_iff_exists.mp (hclosed.entries i nd h e he)
  exact hclosed.inode_lt _ _ hnd'

/-- A resolved inode is in use. -/
theorem Closed.resolveFrom_live {name : Name} {rest : List Name}
    (h : nodes.resolveFrom i name rest = (j : Int)) : (nodes j).isSome := by
  induction rest generalizing i name with
  | nil =>
      rw [Nodes.resolveFrom] at h
      cases hl : nodes.lookup i name with
      | none =>
          rw [hl] at h
          simp only [Nodes.result, enoent] at h
          omega
      | some m =>
          rw [hl] at h
          simp only [Nodes.result] at h
          obtain rfl : m = j := by omega
          exact hclosed.isSome_of_lookup hl
  | cons next rest ih =>
      rw [Nodes.resolveFrom] at h
      split at h
      · simp only [enoent] at h
        omega
      · split at h
        · exact ih h
        · simp only [enotdir] at h
          omega

theorem Closed.resolve_live {cs : List Name} (h : nodes.resolve cs = (j : Int)) :
    (nodes j).isSome := by
  cases cs with
  | nil =>
      rw [Nodes.resolve] at h
      obtain rfl : j = 0 := by omega
      obtain ⟨nd, hnd, _⟩ := hclosed.root
      rw [hnd]
      rfl
  | cons name rest => exact hclosed.resolveFrom_live h

include hold

theorem Holds.helper (hi : nodes i = some nd) (hdir : sIsDir nd.mode) (name : Name) :
    helper img (L.recordAt i) name = .ok (Nodes.result (nodes.lookup i name)) := by
  have hentries := (hold.nodeAt i nd hi).helperEntries (hclosed.ok i nd hi) hold.of
    (hclosed.inode_lt i nd hi) hdir (hclosed.entry_lt hi)
  rw [FileSystem.helper, hentries, ok_bind, lastMatch_eq, Nodes.lookup, Nodes.entriesOf_eq hi]

theorem Holds.walk (hi : nodes i = some nd) (hdir : sIsDir nd.mode) (name : Name)
    (rest : List Name) :
    walk img (L.recordAt i) name rest = .ok (nodes.resolveFrom i name rest) := by
  induction rest generalizing i nd name with
  | nil =>
      rw [FileSystem.walk, hold.helper hclosed hi hdir, Nodes.resolveFrom]
  | cons next rest ih =>
      rw [FileSystem.walk, hold.helper hclosed hi hdir, Nodes.resolveFrom]
      cases hl : nodes.lookup i name with
      | none =>
          rw [show Nodes.result none = -enoent from rfl, ok_bind, if_pos rfl]
      | some j =>
          obtain ⟨nd', hnd'⟩ := Option.isSome_iff_exists.mp (hclosed.isSome_of_lookup hl)
          have hlt := hclosed.inode_lt j nd' hnd'
          have hne : (j : Int) ≠ -enoent := by
            simp only [enoent]
            omega
          have hpass : nodes.passable j = plainDirectory nd'.mode := by
            rw [Nodes.passable, hnd']
          rw [show Nodes.result (some j) = j from rfl, ok_bind, if_neg hne, hold.of.inodeAddr (by omega), (hold.nodeAt j nd' hnd').mode]
          simp only [hpass]
          split
          · rename_i hplain
            exact ih hnd' (sIsDir_of_plainDirectory hplain) next
          · rfl

/-- `path_inode` of a path of components. -/
theorem Holds.pathInode {cs : List Name} (hcs : ∀ c ∈ cs, c ≠ [] ∧ slash ∉ c)
    (hlen : (render cs).length < 4096) :
    pathInode img (render cs) = .ok (nodes.resolve cs) := by
  obtain ⟨nd, hnd, hdir⟩ := hclosed.root
  cases cs with
  | nil => rfl
  | cons name rest =>
      have hroot : inodeAddr img 0 = L.recordAt 0 := hold.of.inodeAddr (i := 0) (by omega)
      rw [pathInode_cons hcs hlen, hroot]
      exact hold.walk hclosed hnd hdir name rest

end Resolution

end UoftOs.FileSystem
