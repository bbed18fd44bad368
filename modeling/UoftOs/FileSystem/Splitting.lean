import UoftOs.FileSystem.Calls

/-!
# The split of a path into parent and name

`a1fs_mkdir` and `a1fs_create` split a path with `newEntryParent`, `a1fs_rmdir`
and `a1fs_unlink` with `oldEntryParent`. Both copy the path into 100 bytes and
read the parent's path from a buffer that `strncpy` does not terminate.
-/

namespace UoftOs.FileSystem

open Lib.ByteMemory

variable {img : Image} {path pre base s : Path} {stale : Nat → UInt8}

/-- The parent's inode number and the last component: what stands before the last slash,
resolved, and what stands behind it. -/
def parentAndName (img : Image) (path : Path) : Except Fault (Int × Name) :=
  match lastSlash path with
  | none => .error .uninitialized
  | some (pre, base) =>
      if pre = [] then .ok (0, base) else (pathInode img pre).map fun ino => (ino, base)

/-- The last component of `parent_path` fits into `parent_name`. -/
def ParentNameFits (s : Path) : Prop :=
  ∀ front parentNa, lastSlash s = some (front, parentNa) → parentNa.length < 252

/-- The string copies stay within `path_cp`, `parent_path`, `parent_name` and the name field of a
directory entry. -/
structure CopiesFit (stale : Nat → UInt8) (path : Path) : Prop where
  path_cp : path.length < 100
  name : ∀ pre base, lastSlash path = some (pre, base) → base.length < 252
  parent : ∀ pre base, lastSlash path = some (pre, base) →
    ∃ s, parentPath stale pre = some s ∧ ParentNameFits s

/-- The four operations split the path within bounds into the same pair, the right one. -/
structure SplitsAlike (img : Image) (stale : Nat → UInt8) (path : Path) : Prop where
  copies : CopiesFit stale path
  newEntry : newEntryParent img stale path = parentAndName img path
  oldEntry : oldEntryParent img stale path = parentAndName img path

/-- The path is short, and the buffer `parent_path` reads as a path of the parent's inode; for
an entry of the root it may also read as a string without a slash. -/
structure ReadsParent (img : Image) (stale : Nat → UInt8) (path : Path) : Prop where
  short : path.length < 100
  parent : ∀ pre base, lastSlash path = some (pre, base) →
    ∃ s, parentPath stale pre = some s ∧ ParentNameFits s ∧
      if pre = [] then slash ∈ s → pathInode img s = .ok 0 else pathInode img s = pathInode img pre

theorem lastSlash_eq_some (h : lastSlash path = some (pre, base)) : path = pre ++ slash :: base := by
  induction path generalizing pre base with
  | nil => cases h
  | cons b path ih =>
      rw [lastSlash] at h
      cases hrest : lastSlash path with
      | some split =>
          rw [hrest] at h
          cases h
          rw [List.cons_append, ← ih hrest]
      | none =>
          rw [hrest] at h
          dsimp only at h
          split at h
          · rename_i hb
            cases h
            rw [hb, List.nil_append]
          · cases h

/-- The buffer reads as a string that starts with what has been copied. -/
theorem parentPath_extends (hpre : ZeroFree pre) (h : parentPath stale pre = some s) :
    ∃ rest, s = pre ++ rest := by
  have hall : ∀ b ∈ pre, decide (b ≠ 0) = true := by
    intro b hb
    rw [decide_eq_true_iff]
    rintro rfl
    exact hpre hb
  rw [parentPath, cstr] at h
  split at h
  · cases h
    rw [List.takeWhile_append_of_pos hall]
    exact ⟨_, rfl⟩
  · cases h

theorem map_injective {x y : Except Fault Int} {name : Name} :
    (x.map fun ino => (ino, name)) = (y.map fun ino => (ino, name)) ↔ x = y := by
  cases x <;> cases y <;> simp [Except.map]

section Split

variable (hsplit : splitPath path = .ok (pre, base)) (hread : parentPath stale pre = some s)
include hsplit hread

/-- `a1fs_mkdir` and `a1fs_create` ask whether `parent_path` has a slash. -/
theorem newEntryParent_reads (hfits : ParentNameFits s) :
    newEntryParent img stale path =
      if slash ∈ s then (pathInode img s).map fun ino => (ino, base) else .ok (0, base) := by
  rw [newEntryParent, hsplit, ok_bind]
  simp only [hread]
  cases hlast : lastSlash s with
  | none =>
      have hno : slash ∉ s := by
        intro hmem
        obtain ⟨split, hsome⟩ := exists_lastSlash hmem
        rw [hlast] at hsome
        cases hsome
      rw [if_neg hno]
  | some split =>
      obtain ⟨front, parentNa⟩ := split
      have hyes : slash ∈ s := by
        rw [lastSlash_eq_some hlast]
        exact List.mem_append_right _ List.mem_cons_self
      have hlt := hfits front parentNa hlast
      rw [if_pos hyes]
      exact if_neg (Nat.not_le.mpr hlt)

/-- `a1fs_rmdir` and `a1fs_unlink` ask whether the prefix is empty. -/
theorem oldEntryParent_reads :
    oldEntryParent img stale path =
      if pre = [] then .ok (0, base) else (pathInode img s).map fun ino => (ino, base) := by
  rw [oldEntryParent, hsplit, ok_bind]
  simp only [hread]
  by_cases hpre : pre = []
  · rw [if_pos hpre, if_pos (by rw [hpre, List.length_nil])]
  · rw [if_neg hpre, if_neg (by rwa [List.length_eq_zero_iff])]

end Split

/-- The operations split a path alike exactly when it is shorter than 100 bytes and the stale
bytes behind the parent's path do no harm. -/
theorem splits_alike_iff (hhead : path.head? = some slash) (hfree : ZeroFree path) :
    SplitsAlike img stale path ↔ ReadsParent img stale path := by
  obtain ⟨rest, rfl⟩ : ∃ rest, path = slash :: rest := by
    cases path with
    | nil => cases hhead
    | cons b rest => exact ⟨rest, by rw [Option.some.inj hhead]⟩
  obtain ⟨⟨pre, base⟩, hlast⟩ := exists_lastSlash (s := slash :: rest) List.mem_cons_self
  have hpath := lastSlash_eq_some hlast
  have honly {pre' base' : Path} (h : lastSlash (slash :: rest) = some (pre', base')) :
      pre' = pre ∧ base' = base := by
    rw [hlast] at h
    cases h
    exact ⟨rfl, rfl⟩
  have hpreFree : ZeroFree pre := by
    intro hzero
    rw [hpath] at hfree
    exact hfree (List.mem_append_left _ hzero)
  have hpair : parentAndName img (slash :: rest) =
      if pre = [] then .ok (0, base) else (pathInode img pre).map fun ino => (ino, base) := by
    rw [parentAndName, hlast]
  -- A prefix that is not empty starts with the first slash of the path.
  have hslash {s : Path} (hread : parentPath stale pre = some s) (hpre : pre ≠ []) : slash ∈ s := by
    obtain ⟨more, rfl⟩ := parentPath_extends hpreFree hread
    obtain ⟨b, pre', rfl⟩ := List.exists_cons_of_ne_nil hpre
    rw [List.cons_append, List.cons.injEq] at hpath
    rw [← hpath.1]
    exact List.mem_append_left _ List.mem_cons_self
  have hagree {s : Path} (hsplit : splitPath (slash :: rest) = .ok (pre, base))
      (hread : parentPath stale pre = some s) (hfits : ParentNameFits s) :
      (newEntryParent img stale (slash :: rest) = parentAndName img (slash :: rest) ∧
        oldEntryParent img stale (slash :: rest) = parentAndName img (slash :: rest)) ↔
      if pre = [] then slash ∈ s → pathInode img s = .ok 0
      else pathInode img s = pathInode img pre := by
    rw [newEntryParent_reads hsplit hread hfits, oldEntryParent_reads hsplit hread, hpair]
    by_cases hpre : pre = []
    · rw [if_pos hpre, if_pos hpre, if_pos hpre]
      by_cases hmem : slash ∈ s
      · have hroot : (.ok (0, base) : Except Fault (Int × Name)) =
            (Except.ok (0 : Int)).map fun ino => (ino, base) := rfl
        rw [if_pos hmem, hroot, map_injective]
        exact ⟨fun h _ => h.1, fun h => ⟨h hmem, rfl⟩⟩
      · rw [if_neg hmem]
        exact iff_of_true ⟨rfl, rfl⟩ fun h => absurd h hmem
    · rw [if_neg hpre, if_neg hpre, if_neg hpre, if_pos (hslash hread hpre), map_injective, and_self]
  have hlong : (slash :: rest).length < 100 → splitPath (slash :: rest) = .ok (pre, base) := by
    intro hshort
    rw [splitPath, if_neg (Nat.not_le.mpr hshort), hlast]
  constructor
  · intro h
    refine ⟨h.copies.path_cp, fun pre' base' hlast' => ?_⟩
    obtain ⟨rfl, rfl⟩ := honly hlast'
    obtain ⟨s, hread, hfits⟩ := h.copies.parent _ _ hlast
    exact ⟨s, hread, hfits,
      (hagree (hlong h.copies.path_cp) hread hfits).mp ⟨h.newEntry, h.oldEntry⟩⟩
  · intro h
    obtain ⟨s, hread, hfits, hsame⟩ := h.parent _ _ hlast
    obtain ⟨hnew, hold⟩ := (hagree (hlong h.short) hread hfits).mpr hsame
    refine ⟨⟨h.short, fun pre' base' hlast' => ?_, fun pre' base' hlast' => ?_⟩, hnew, hold⟩
    · have hlt := lastSlash_length hlast'
      have hshort := h.short
      omega
    · obtain ⟨rfl, rfl⟩ := honly hlast'
      exact ⟨s, hread, hfits⟩

/-- The path `"/f"` with a zeroed buffer. -/
theorem splits_alike_iff_file :
    SplitsAlike (fun _ => 0) (fun _ => 0) [slash, 102] ↔
      ReadsParent (fun _ => 0) (fun _ => 0) [slash, 102] :=
  splits_alike_iff rfl (by decide)

/-- A path of 100 bytes does not fit into `path_cp`. -/
theorem long_path_overruns :
    ¬ ∀ (img : Image) (stale : Nat → UInt8) (path : Path), path.head? = some slash →
      ZeroFree path → path.length < 4096 → SplitsAlike img stale path := by
  intro hclaim
  have hsplits := hclaim (fun _ => 0) (fun _ => 0) (slash :: List.replicate 99 97) rfl (by decide)
    (by decide)
  exact absurd hsplits.copies.path_cp (by decide)

end UoftOs.FileSystem
