import UoftOs.FileSystem.Driver
import UoftOs.FileSystem.Nodes

/-!
# Calls and their preconditions

FUSE passes the driver a path of valid components and has looked the path, and for
a new entry its parent, up with `getattr` before. The calls that change the image
are collected in one type.

## Implementation notes

`parent_path` is not terminated by `strncpy`. `BufferReads` says that what stands
behind the copied bytes lets it read as the path of the parent directory.
-/

namespace UoftOs.FileSystem

open Lib.ByteMemory

/-- A path other than `"/"`, by the components of its parent and its own name. -/
structure Target where
  dirs : List Name
  name : Name
  valid : ∀ c ∈ dirs ++ [name], ValidName c
  length_lt : (render (dirs ++ [name])).length < 4096

namespace Target

def path (t : Target) : Path := render (t.dirs ++ [t.name])

/-- The path of the parent directory. -/
def parent (t : Target) : Path := render t.dirs

end Target

/-- The file `"/f"`. -/
def fileTarget : Target where
  dirs := []
  name := [102]
  valid := by
    intro c hc
    obtain rfl : c = [102] := by simpa using hc
    constructor <;> decide
  length_lt := by decide

/-- The calls that change the image. The unwritten part of `parent_path` comes with
those that read it. -/
inductive Call
  | mkdir (t : Target) (mode : Nat) (stale : Nat → UInt8)
  | create (t : Target) (mode : Nat) (stale : Nat → UInt8)
  | rmdir (t : Target) (stale : Nat → UInt8)
  | unlink (t : Target) (stale : Nat → UInt8)
  | write (t : Target) (buf : List UInt8) (offset : Nat)
  | truncate (t : Target) (size : Nat)

/-- The result of a call and the image it leaves. -/
def Call.run (img : Image) : Call → Except Fault (Int × Image)
  | .mkdir t mode stale => a1fsMkdir img t.path mode stale
  | .create t mode stale => a1fsCreate img t.path mode stale
  | .rmdir t stale => a1fsRmdir img t.path stale
  | .unlink t stale => a1fsUnlink img t.path stale
  | .write t buf offset => a1fsWrite img t.path buf offset
  | .truncate t size => a1fsTruncate img t.path size

/-- `getattr` finds a directory. -/
def IsDirectory (img : Image) (path : Path) : Prop :=
  ∃ st, a1fsGetattr img path = .ok (0, st) ∧ sIsDir st.mode

/-- `getattr` finds something that is not a directory. -/
def IsFile (img : Image) (path : Path) : Prop :=
  ∃ st, a1fsGetattr img path = .ok (0, st) ∧ ¬ sIsDir st.mode

/-- `getattr` finds nothing. -/
def Absent (img : Image) (path : Path) : Prop :=
  ∃ st, a1fsGetattr img path = .ok (-enoent, st)

/-- What FUSE has verified before it makes a call. -/
def Call.Allowed (img : Image) : Call → Prop
  | .mkdir t mode _ =>
      Absent img t.path ∧ IsDirectory img t.parent ∧ sIsDir (mode ||| sIfDir) ∧ mode < 4294967296
  | .create t mode _ =>
      Absent img t.path ∧ IsDirectory img t.parent ∧ sIsReg mode ∧ mode < 4294967296
  | .rmdir t _ => IsDirectory img t.path
  | .unlink t _ => IsFile img t.path
  | .write t buf offset =>
      IsFile img t.path ∧ offset % 4096 + buf.length ≤ 4096 ∧
        offset + buf.length < 9223372036854775808
  | .truncate t size => IsFile img t.path ∧ size < 9223372036854775808

/-- The buffer `parent_path` reads as the path of the directory. -/
def BufferReads (stale : Nat → UInt8) (dirs : List Name) : Prop :=
  if dirs = [] then
    ∃ s, parentPath stale [] = some s ∧ (lastSlash s = none ∨ s = [slash])
  else parentPath stale (renderPrefix dirs) = some (renderPrefix dirs)

variable {img img' : Image} {L : Layout} {nodes : Nodes} {nd : Node} {i j : Nat}
  {stale : Nat → UInt8} {t : Target} {cs dirs : List Name} {name : Name}

/-! ## Resolution of targets -/

namespace Target

theorem component (t : Target) : ∀ c ∈ t.dirs ++ [t.name], c ≠ [] ∧ slash ∉ c :=
  fun c hc => ⟨(t.valid c hc).nonempty, (t.valid c hc).noSlash⟩

theorem dir_component (t : Target) : ∀ c ∈ t.dirs, c ≠ [] ∧ slash ∉ c :=
  fun c hc => t.component c (List.mem_append_left _ hc)

theorem name_valid (t : Target) : ValidName t.name := t.valid _ (by simp)

theorem length_prefix_lt (t : Target) : (renderPrefix t.dirs).length < t.path.length :=
  length_renderPrefix_lt

theorem length_parent_lt (t : Target) : t.parent.length < 4096 := by
  have hlt := t.length_prefix_lt
  have hpath : t.path.length < 4096 := t.length_lt
  unfold parent
  by_cases hdirs : t.dirs = []
  · rw [hdirs]
    decide
  · rw [render_of_ne_nil hdirs]
    omega

theorem path_ne_root (t : Target) : t.path ≠ [slash] := by
  intro heq
  have hlen := congrArg List.length heq
  have hpos := List.length_pos_iff.mpr t.name_valid.nonempty
  rw [path, render_concat, List.length_append, List.length_cons, List.length_singleton] at hlen
  omega

theorem name_length (t : Target) (h : t.path.length < 100) : t.name.length < 100 := by
  rw [path, render_concat, List.length_append, List.length_cons] at h
  omega

theorem splitPath (t : Target) (h : t.path.length < 100) :
    splitPath t.path = .ok (renderPrefix t.dirs, t.name) :=
  splitPath_render t.name_valid.noSlash h

end Target

theorem lastSlash_length {s : Path} {pre base : Path} (h : lastSlash s = some (pre, base)) :
    base.length < s.length := by
  induction s generalizing pre base with
  | nil => cases h
  | cons b s ih =>
      rw [lastSlash] at h
      cases hs : lastSlash s with
      | some p =>
          rw [hs] at h
          obtain ⟨pre', base'⟩ := p
          cases h
          have hlt := ih hs
          rw [List.length_cons]
          omega
      | none =>
          rw [hs] at h
          simp only at h
          split at h
          · cases h
            simp
          · cases h

theorem exists_lastSlash {s : Path} (h : slash ∈ s) : ∃ p, lastSlash s = some p := by
  induction s with
  | nil => cases h
  | cons b s ih =>
      rw [lastSlash]
      cases hs : lastSlash s with
      | some p => exact ⟨_, rfl⟩
      | none =>
          rcases List.mem_cons.mp h with heq | hmem
          · exact ⟨_, if_pos heq.symm⟩
          · obtain ⟨p, hp⟩ := ih hmem
            rw [hs] at hp
            cases hp

/-- The parent's inode in `a1fs_mkdir` and `a1fs_create`. -/
theorem newEntryParent_eq (hlen : t.path.length < 100) (hbuf : BufferReads stale t.dirs) :
    newEntryParent img stale t.path = (pathInode img t.parent).map fun ino => (ino, t.name) := by
  rw [newEntryParent, t.splitPath hlen, ok_bind, Target.parent]
  unfold BufferReads at hbuf
  split at hbuf
  · rename_i hdirs
    obtain ⟨s, hs, hcases⟩ := hbuf
    rw [hdirs, renderPrefix_nil]
    simp only [hs]
    rcases hcases with hnone | rfl
    · rw [hnone]
      rfl
    · rfl
  · rename_i hdirs
    have hlt := t.length_prefix_lt
    obtain ⟨⟨pre, base⟩, hsplit⟩ : ∃ p, lastSlash (renderPrefix t.dirs) = some p := by
      apply exists_lastSlash
      obtain ⟨c, cs, hcons⟩ := List.exists_cons_of_ne_nil hdirs
      rw [hcons]
      exact List.mem_append_left _ List.mem_cons_self
    have hbase := lastSlash_length hsplit
    simp only [hbuf, hsplit]
    rw [if_neg (by omega), render_of_ne_nil hdirs]

/-- The parent's inode in `a1fs_rmdir` and `a1fs_unlink`. -/
theorem oldEntryParent_eq (hlen : t.path.length < 100)
    (hbuf : t.dirs ≠ [] → BufferReads stale t.dirs) :
    oldEntryParent img stale t.path = (pathInode img t.parent).map fun ino => (ino, t.name) := by
  rw [oldEntryParent, t.splitPath hlen, ok_bind, Target.parent]
  by_cases hdirs : t.dirs = []
  · simp only [hdirs, renderPrefix_nil]
    rfl
  · have hne : (renderPrefix t.dirs).length ≠ 0 := by
      rw [ne_eq, List.length_eq_zero_iff, renderPrefix_eq_nil_iff]
      exact hdirs
    have hread := hbuf hdirs
    rw [BufferReads, if_neg hdirs] at hread
    simp only [hread]
    rw [if_neg hne, render_of_ne_nil hdirs]

/-- The last component is looked up in the directory of those before it. -/
theorem Nodes.resolveFrom_concat {rest : List Name} {c : Name}
    (h : nodes.resolveFrom i name (rest ++ [c]) = (j : Int)) :
    ∃ p : Nat, nodes.resolveFrom i name rest = p ∧ nodes.passable p ∧
      nodes.lookup p c = some j := by
  induction rest generalizing i name with
  | nil =>
      rw [List.nil_append, resolveFrom] at h
      cases hl : nodes.lookup i name with
      | none =>
          rw [hl] at h
          simp only [enoent] at h
          omega
      | some p =>
          rw [hl] at h
          simp only at h
          split at h
          · rename_i hpass
            rw [resolveFrom] at h
            cases hc : nodes.lookup p c with
            | none =>
                rw [hc] at h
                simp only [result, enoent] at h
                omega
            | some k =>
                rw [hc] at h
                simp only [result] at h
                obtain rfl : k = j := by omega
                exact ⟨p, by rw [resolveFrom, hl]; rfl, hpass, hc⟩
          · simp only [enotdir] at h
            omega
  | cons next rest ih =>
      rw [List.cons_append, resolveFrom] at h
      split at h
      · simp only [enoent] at h
        omega
      · rename_i k hl
        split at h
        · rename_i hpass
          obtain ⟨p, hp, hrest⟩ := ih h
          refine ⟨p, ?_, hrest⟩
          rw [resolveFrom, hl]
          simp only [hpass, if_true]
          exact hp
        · simp only [enotdir] at h
          omega

theorem Nodes.resolve_concat {c : Name} (h : nodes.resolve (dirs ++ [c]) = (j : Int)) :
    ∃ p : Nat, nodes.resolve dirs = p ∧ (p = 0 ∨ nodes.passable p) ∧
      nodes.lookup p c = some j := by
  cases dirs with
  | nil =>
      refine ⟨0, rfl, .inl rfl, ?_⟩
      rw [List.nil_append, resolve, resolveFrom] at h
      cases hc : nodes.lookup 0 c with
      | none =>
          rw [hc] at h
          simp only [result, enoent] at h
          omega
      | some k =>
          rw [hc] at h
          simp only [result] at h
          obtain rfl : k = j := by omega
          rfl
  | cons d dirs =>
      obtain ⟨p, hp, hpass, hl⟩ := Nodes.resolveFrom_concat h
      exact ⟨p, hp, .inr hpass, hl⟩

/-! ## What `getattr` tells about the nodes -/

/-- What `getattr` returns for a path that ends in an inode. -/
theorem getattr_of_pathInode {path : Path} (hlen : path.length < 4096)
    (h : pathInode img path = .ok (i : Int)) :
    ∃ st, a1fsGetattr img path = .ok (0, st) ∧ st.mode = inodeMode img (inodeAddr img i) := by
  have hne : ∀ k : Int, k < 0 → (i : Int) ≠ k := by
    intro k hk
    omega
  rw [a1fsGetattr, if_neg (by omega), h, ok_bind, if_neg (hne _ (by decide)),
    if_neg (hne _ (by decide)), if_pos (Int.natCast_nonneg i)]
  exact ⟨_, rfl, rfl⟩

section Getattr

variable (hold : Holds L img nodes) (hclosed : Closed nodes L)
include hold hclosed

theorem getattr_found {st : Stat} (hcs : ∀ c ∈ cs, c ≠ [] ∧ slash ∉ c)
    (hlen : (render cs).length < 4096) (h : a1fsGetattr img (render cs) = .ok (0, st)) :
    ∃ (i : Nat) (nd : Node), nodes.resolve cs = i ∧ nodes i = some nd ∧ st.mode = nd.mode := by
  rw [a1fsGetattr, if_neg (by omega), hold.pathInode hclosed hcs hlen, ok_bind] at h
  split at h
  · cases h
  · split at h
    · cases h
    · split at h
      · rename_i hnonneg
        obtain ⟨i, hi⟩ := Int.eq_ofNat_of_zero_le hnonneg
        obtain ⟨nd, hnd⟩ := Option.isSome_iff_exists.mp (hclosed.resolve_live hi)
        have hlt := hclosed.inode_lt i nd hnd
        refine ⟨i, nd, hi, hnd, ?_⟩
        simp only [Except.ok.injEq, Prod.mk.injEq, true_and] at h
        rw [← h, ← (hold.nodeAt i nd hnd).mode, hi, hold.of.inodeAddr (by omega)]
      · cases h

theorem getattr_absent {st : Stat} (hcs : ∀ c ∈ cs, c ≠ [] ∧ slash ∉ c)
    (hlen : (render cs).length < 4096) (h : a1fsGetattr img (render cs) = .ok (-enoent, st)) :
    nodes.resolve cs = -enoent := by
  rw [a1fsGetattr, if_neg (by omega), hold.pathInode hclosed hcs hlen, ok_bind] at h
  split at h
  · assumption
  · split at h
    · cases h
    · split at h
      · cases h
      · cases h

/-- A directory by its path. -/
theorem IsDirectory.node (hcs : ∀ c ∈ cs, c ≠ [] ∧ slash ∉ c)
    (hlen : (render cs).length < 4096) (h : IsDirectory img (render cs)) :
    ∃ (i : Nat) (nd : Node), nodes.resolve cs = i ∧ nodes i = some nd ∧ sIsDir nd.mode := by
  obtain ⟨st, hst, hdir⟩ := h
  obtain ⟨i, nd, hi, hnd, hmode⟩ := getattr_found hold hclosed hcs hlen hst
  exact ⟨i, nd, hi, hnd, hmode ▸ hdir⟩

/-- A file by its path. -/
theorem IsFile.node (hcs : ∀ c ∈ cs, c ≠ [] ∧ slash ∉ c)
    (hlen : (render cs).length < 4096) (h : IsFile img (render cs)) :
    ∃ (i : Nat) (nd : Node), nodes.resolve cs = i ∧ nodes i = some nd ∧ ¬ sIsDir nd.mode := by
  obtain ⟨st, hst, hdir⟩ := h
  obtain ⟨i, nd, hi, hnd, hmode⟩ := getattr_found hold hclosed hcs hlen hst
  exact ⟨i, nd, hi, hnd, hmode ▸ hdir⟩

/-- A path that ends in a missing entry is absent. -/
theorem absent_of_resolve (hcs : ∀ c ∈ cs, c ≠ [] ∧ slash ∉ c)
    (hlen : (render cs).length < 4096) (h : nodes.resolve cs = -enoent) :
    Absent img (render cs) := by
  refine ⟨Stat.zero, ?_⟩
  rw [a1fsGetattr, if_neg (by omega), hold.pathInode hclosed hcs hlen, ok_bind, h]
  rfl

/-- What `getattr` returns for a path that ends in a node. -/
theorem getattr_node (hcs : ∀ c ∈ cs, c ≠ [] ∧ slash ∉ c)
    (hlen : (render cs).length < 4096) (h : nodes.resolve cs = (i : Int)) (hnd : nodes i = some nd) :
    ∃ st, a1fsGetattr img (render cs) = .ok (0, st) ∧ st.mode = nd.mode := by
  have hlt := hclosed.inode_lt i nd hnd
  obtain ⟨st, hst, hmode⟩ := getattr_of_pathInode hlen
    ((hold.pathInode hclosed hcs hlen).trans (congrArg _ h))
  refine ⟨st, hst, ?_⟩
  rw [hmode, hold.of.inodeAddr hlt.le, (hold.nodeAt i nd hnd).mode]

theorem isDirectory_of_resolve (hcs : ∀ c ∈ cs, c ≠ [] ∧ slash ∉ c)
    (hlen : (render cs).length < 4096) (h : nodes.resolve cs = (i : Int)) (hnd : nodes i = some nd)
    (hdir : sIsDir nd.mode) : IsDirectory img (render cs) := by
  obtain ⟨st, hst, hmode⟩ := getattr_node hold hclosed hcs hlen h hnd
  exact ⟨st, hst, hmode ▸ hdir⟩

theorem isFile_of_resolve (hcs : ∀ c ∈ cs, c ≠ [] ∧ slash ∉ c)
    (hlen : (render cs).length < 4096) (h : nodes.resolve cs = (i : Int)) (hnd : nodes i = some nd)
    (hdir : ¬ sIsDir nd.mode) : IsFile img (render cs) := by
  obtain ⟨st, hst, hmode⟩ := getattr_node hold hclosed hcs hlen h hnd
  exact ⟨st, hst, hmode ▸ hdir⟩

end Getattr

end UoftOs.FileSystem
