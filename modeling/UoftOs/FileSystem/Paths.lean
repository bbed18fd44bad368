import UoftOs.FileSystem.Types

/-!
# Names, paths and path resolution

A path is a string without its terminator. `helper` looks a name up in one
directory, `pathInode` walks the components, and the directory operations split a
path at its last slash through buffers of fixed size.

## Implementation notes

The triple loop of `helper` over extents, blocks and slots copies the first
`size / 256` slots of the directory in order, so it is the prefix of that length
of the flattened slots.
-/

namespace UoftOs.FileSystem

open Lib.ByteMemory

/-- A path component. -/
abbrev Name := List UInt8

abbrev Path := List UInt8

/-- The character `'/'`. -/
def slash : UInt8 := 47

/-- The name `"."`. -/
def dot : Name := [46]

/-- The name `".."`. -/
def dotDot : Name := [46, 46]

def enoent : Int := 2
def enomem : Int := 12
def enotdir : Int := 20
def enospc : Int := 28
def enametoolong : Int := 36
def enosys : Int := 38
def enotempty : Int := 39

/-! ## Strings -/

/-- The tokens `strtok(_, "/")` delivers, after `cur` of the current one was read. -/
def tokensFrom (cur : Name) : Path → List Name
  | [] => if cur = [] then [] else [cur]
  | b :: rest =>
      if b = slash then
        if cur = [] then tokensFrom [] rest else cur :: tokensFrom [] rest
      else tokensFrom (cur ++ [b]) rest

/-- The tokens of a path. -/
def tokens (path : Path) : List Name := tokensFrom [] path

/-- `strrchr(path, '/')`: what stands before and after the last slash. -/
def lastSlash : Path → Option (Path × Name)
  | [] => none
  | b :: rest =>
      match lastSlash rest with
      | some (pre, base) => some (b :: pre, base)
      | none => if b = slash then some ([], rest) else none

/-- The path of a component list. -/
def render (cs : List Name) : Path := if cs = [] then [slash] else cs.flatMap (slash :: ·)

/-! ## Lookup in one directory -/

/-- The blocks of one extent, `start` up to `start + count`. -/
def extentBlocks (img : Image) (e i : Int) : List Int :=
  let start := int32 (extentStart img e i)
  let count := int32 (extentLength img e i)
  (List.range (int32 (count + start) - start).toNat).map fun (k : Nat) => start + k

/-- The blocks of the first `n` extents of an extent block, in order. -/
def fileBlocks (img : Image) (e n : Int) : List Int :=
  (List.range n.toNat).flatMap fun (i : Nat) => extentBlocks img e i

/-- The addresses of the 16 directory slots of a block. -/
def blockSlots (img : Image) (j : Int) : List Int :=
  (List.range 16).map fun (x : Nat) => dataAddr img j + 256 * x

/-- The name and the inode number in a directory slot, as copied by `helper`. -/
def readDentry (img : Image) (d : Int) : Except Fault (Name × Int) :=
  match cstr (bytesAt img (d + 4) 252) with
  | some name => .ok (name, int32 (dentryIno img d))
  | none => .error .unterminated

/-- The slots `helper` copies for the directory whose inode record is at `root`. -/
def directorySlots (img : Image) (root : Int) : List Int :=
  let entryCount := int32 (inodeSize img root / 256 : Nat)
  let eBlock := extentAddr img (inoNumber img root)
  ((fileBlocks img eBlock (extentCount img root)).flatMap (blockSlots img)).take entryCount.toNat

/-- The contents of the two arrays of `helper`. -/
def helperEntries (img : Image) (root : Int) : Except Fault (List (Name × Int)) :=
  if 512 < (directorySlots img root).length then .error .overflow
  else (directorySlots img root).mapM (readDentry img)

/-- The last entry with the given name. -/
def lastMatch (name : Name) (entries : List (Name × Int)) : Int :=
  entries.foldl (fun result entry => if entry.1 = name then entry.2 else result) (-enoent)

/-- `helper`. -/
def helper (img : Image) (root : Int) (name : Name) : Except Fault Int := do
  let entries ← helperEntries img root
  .ok (lastMatch name entries)

/-! ## `path_inode` -/

/-- The loop of `path_inode`. The directory test is made when a further token follows. -/
def walk (img : Image) : Int → Name → List Name → Except Fault Int
  | root, token, [] => helper img root token
  | root, token, next :: rest => do
      let result ← helper img root token
      if result = -enoent then .ok (-enoent)
      else if plainDirectory (inodeMode img (inodeAddr img result)) then
        walk img (inodeAddr img result) next rest
      else .ok (-enotdir)

/-- `path_inode`. -/
def pathInode (img : Image) (path : Path) : Except Fault Int :=
  if path.head? ≠ some slash then .ok (-1)
  else if path = [slash] then .ok 0
  else if 4096 ≤ path.length then .error .overflow
  else
    match tokens path with
    | [] => .ok (extentCount img (inodeAddr img 0))
    | token :: rest => walk img (inodeAddr img 0) token rest

/-! ## The split at the last slash -/

/-- The buffer `parent_path` after `strncpy` of the prefix, read as a string. Its
previous contents are `stale`. -/
def parentPath (stale : Nat → UInt8) (pre : Path) : Option Path :=
  cstr (pre ++ (List.range (4096 - pre.length)).map fun i => stale (pre.length + i))

/-- `strcpy` into `path_cp[100]`, then the split. -/
def splitPath (path : Path) : Except Fault (Path × Name) :=
  if 100 ≤ path.length then .error .overflow
  else
    match lastSlash path with
    | none => .error .uninitialized
    | some split => .ok split

/-- The parent's inode number and the last component in `a1fs_mkdir` and `a1fs_create`. -/
def newEntryParent (img : Image) (stale : Nat → UInt8) (path : Path) :
    Except Fault (Int × Name) := do
  let (pre, newDr) ← splitPath path
  match parentPath stale pre with
  | none => .error .unterminated
  | some parent =>
      match lastSlash parent with
      | none => .ok (0, newDr)
      | some (_, parentNa) =>
          if 252 ≤ parentNa.length then .error .overflow
          else (pathInode img parent).map fun ino => (ino, newDr)

/-- The parent's inode number and the last component in `a1fs_rmdir` and `a1fs_unlink`. -/
def oldEntryParent (img : Image) (stale : Nat → UInt8) (path : Path) :
    Except Fault (Int × Name) := do
  let (pre, newDr) ← splitPath path
  if pre.length = 0 then .ok (0, newDr)
  else
    match parentPath stale pre with
    | none => .error .unterminated
    | some parent => (pathInode img parent).map fun ino => (ino, newDr)

/-! ## Paths of component lists -/

/-- A component as the kernel passes it: a string without a slash, not empty and
neither `"."` nor `".."`. -/
structure ValidName (name : Name) : Prop where
  zeroFree : ZeroFree name
  noSlash : slash ∉ name
  nonempty : name ≠ []
  ne_dot : name ≠ dot
  ne_dotDot : name ≠ dotDot

variable {cs : List Name} {c : Name} {path pre base : Path}

theorem tokensFrom_append {cur : Name} (hc : slash ∉ c) (rest : Path) :
    tokensFrom cur (c ++ rest) = tokensFrom (cur ++ c) rest := by
  induction c generalizing cur with
  | nil => simp
  | cons b c ih =>
      have hb : b ≠ slash := by
        rintro rfl
        exact hc (by simp)
      rw [List.cons_append, tokensFrom, if_neg hb, ih (fun h => hc (by simp [h])),
        List.append_assoc, List.singleton_append]

theorem tokensFrom_slash {cur : Name} (hcur : cur ≠ []) (rest : Path) :
    tokensFrom cur (slash :: rest) = cur :: tokensFrom [] rest := by
  rw [tokensFrom, if_pos rfl, if_neg hcur]

/-- The tokens of a rendered path are its components. -/
theorem tokensFrom_render {cur : Name} (hcur : cur ≠ [])
    (hcs : ∀ c ∈ cs, c ≠ [] ∧ slash ∉ c) :
    tokensFrom cur (cs.flatMap (slash :: ·)) = cur :: cs := by
  induction cs generalizing cur with
  | nil => simp [tokensFrom, hcur]
  | cons c cs ih =>
      obtain ⟨hne, hslash⟩ := hcs c (by simp)
      rw [List.flatMap_cons, List.cons_append, tokensFrom_slash hcur, tokensFrom_append hslash,
        List.nil_append, ih hne fun d hd => hcs d (by simp [hd])]

theorem tokens_render (hcs : ∀ c ∈ cs, c ≠ [] ∧ slash ∉ c) : tokens (render cs) = cs := by
  cases cs with
  | nil => rfl
  | cons c cs =>
      obtain ⟨hne, hslash⟩ := hcs c (by simp)
      rw [render, if_neg (by simp), List.flatMap_cons, List.cons_append, tokens, tokensFrom,
        if_pos rfl, if_pos rfl, tokensFrom_append hslash, List.nil_append,
        tokensFrom_render hne fun d hd => hcs d (by simp [hd])]

/-- On the path of a component list `path_inode` walks the components. -/
theorem pathInode_cons {img : Image} (hcs : ∀ d ∈ c :: cs, d ≠ [] ∧ slash ∉ d)
    (hlen : (render (c :: cs)).length < 4096) :
    pathInode img (render (c :: cs)) = walk img (inodeAddr img 0) c cs := by
  have hhead : (render (c :: cs)).head? = some slash := rfl
  have hne : render (c :: cs) ≠ [slash] := by
    obtain ⟨hname, _⟩ := hcs c List.mem_cons_self
    intro heq
    have hlen' := congrArg List.length heq
    have hpos := List.length_pos_iff.mpr hname
    rw [render, if_neg (by simp)] at hlen'
    simp only [List.flatMap_cons, List.length_append, List.length_cons, List.length_nil] at hlen'
    omega
  rw [pathInode, if_neg (by simp [hhead]), if_neg hne, if_neg (by omega), tokens_render hcs]

theorem lastSlash_eq_none (h : slash ∉ path) : lastSlash path = none := by
  induction path with
  | nil => rfl
  | cons b path ih =>
      have hb : b ≠ slash := by
        rintro rfl
        exact h (by simp)
      rw [lastSlash, ih fun hmem => h (by simp [hmem])]
      simp [hb]

theorem lastSlash_append (h : slash ∉ base) :
    lastSlash (pre ++ slash :: base) = some (pre, base) := by
  induction pre with
  | nil => simp [lastSlash, lastSlash_eq_none h]
  | cons b pre ih => rw [List.cons_append, lastSlash, ih]

/-- What stands before the last component of a path: nothing under the root. -/
def renderPrefix (cs : List Name) : Path := cs.flatMap (slash :: ·)

theorem renderPrefix_nil : renderPrefix [] = [] := rfl

theorem render_concat : render (cs ++ [c]) = renderPrefix cs ++ slash :: c := by
  rw [render, if_neg (by simp), List.flatMap_append]
  simp [renderPrefix]

theorem render_of_ne_nil (h : cs ≠ []) : render cs = renderPrefix cs := by
  rw [render, if_neg h, renderPrefix]

theorem renderPrefix_eq_nil_iff : renderPrefix cs = [] ↔ cs = [] := by
  cases cs with
  | nil => simp [renderPrefix]
  | cons c cs => simp [renderPrefix]

theorem length_renderPrefix_lt : (renderPrefix cs).length < (render (cs ++ [c])).length := by
  rw [render_concat, List.length_append, List.length_cons]
  omega

theorem splitPath_render (hc : slash ∉ c) (hlen : (render (cs ++ [c])).length < 100) :
    splitPath (render (cs ++ [c])) = .ok (renderPrefix cs, c) := by
  rw [splitPath, if_neg (by omega), render_concat, lastSlash_append hc]

theorem zeroFree_renderPrefix (h : ∀ c ∈ cs, ZeroFree c) : ZeroFree (renderPrefix cs) := by
  intro hmem
  obtain ⟨c, hc, hzero⟩ := List.mem_flatMap.mp hmem
  rcases List.mem_cons.mp hzero with hslash | hin
  · simp [slash] at hslash
  · exact h c hc hin

/-- The buffer reads as the prefix when the byte behind it is zero. -/
theorem parentPath_of_zero {stale : Nat → UInt8} (hpre : ZeroFree pre) (hlen : pre.length < 100)
    (hstale : stale pre.length = 0) : parentPath stale pre = some pre := by
  obtain ⟨k, hk⟩ := Nat.exists_eq_add_of_lt (show 0 < 4096 - pre.length by omega)
  rw [parentPath, hk, Nat.zero_add, List.range_succ_eq_map, List.map_cons, Nat.add_zero, hstale]
  have hstring := cstr_append hpre (((List.range k).map Nat.succ).map fun i => stale (pre.length + i))
  simpa [terminated] using hstring

end UoftOs.FileSystem
