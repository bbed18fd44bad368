import UoftOs.FileSystem.Listing

/-!
# Path resolution against the component walk

The component walk looks each name up in the directory reached so far, by the index
of the directory, and tests `S_ISDIR` before it looks further. `path_inode` finds the
extent block through `ino_number` and tests the mode by a mask, so it stops at
directories with a setuid, setgid or sticky bit.
-/

namespace UoftOs.FileSystem

open Lib.ByteMemory

/-! ## The component walk -/

/-- The live slots of directory `i`. -/
def slotsOf (img : Image) (i : Nat) : List Int :=
  ((fileBlocks img (extentAddr img i) (extentCount img (inodeAddr img i))).flatMap
    (blockSlots img)).take (int32 (inodeSize img (inodeAddr img i) / 256 : Nat)).toNat

/-- The name that stands in a slot. -/
def slotName (img : Image) (d : Int) : Option Name := cstr (bytesAt img (d + 4) 252)

/-- The inode that the last entry with the name gives. -/
def lookupEntry (img : Image) (i : Nat) (name : Name) : Option Nat :=
  ((slotsOf img i).findRev? fun d => slotName img d = some name).map (dentryIno img)

/-- `S_ISDIR` of the inode. -/
def isDirectoryInode (img : Image) (i : Nat) : Bool := sIsDir (inodeMode img (inodeAddr img i))

/-- Where a walk ends. -/
inductive Arrival
  | inode (i : Nat)
  | missing
  | notDirectory
  deriving DecidableEq

/-- The walk over the components from directory `i`. -/
def componentWalk (img : Image) : Nat → List Name → Arrival
  | i, [] => .inode i
  | i, name :: rest =>
      (lookupEntry img i name).elim .missing fun j =>
        if rest = [] ∨ isDirectoryInode img j then componentWalk img j rest else .notDirectory

/-- The inodes that walks reach. -/
inductive Reached (img : Image) : Nat → Prop
  | root : Reached img 0
  | entry {i j : Nat} {name : Name} (reached : Reached img i)
      (directory : i = 0 ∨ isDirectoryInode img i) (found : lookupEntry img i name = some j) :
      Reached img j

/-- `path_inode` returns the inode the walk reaches, or the error that it ends with. -/
def ResolvesRight (img : Image) (cs : List Name) : Prop :=
  ∃ r, pathInode img (render cs) = .ok r ∧
    (∀ i, componentWalk img 0 cs = .inode i → r = i) ∧
      (r = -enoent ↔ componentWalk img 0 cs = .missing) ∧
        (r = -enotdir ↔ componentWalk img 0 cs = .notDirectory)

/-- The entries of directory `i` fit in the arrays of `helper`. -/
def Copyable (img : Image) (i : Nat) : Prop :=
  (slotsOf img i).length ≤ 512 ∧ ∀ d ∈ slotsOf img i, (slotName img d).isSome

/-- Every directory that is looked into can be copied, up to the end of the walk or to a
directory with a setuid, setgid or sticky bit from which no walk would go on. -/
def PlainWalk (img : Image) : Nat → List Name → Prop
  | _, [] => True
  | i, name :: rest =>
      Copyable img i ∧ ∀ j, lookupEntry img i name = some j → rest ≠ [] → isDirectoryInode img j →
        if plainDirectory (inodeMode img (inodeAddr img j)) then PlainWalk img j rest
        else componentWalk img j rest = .notDirectory

variable {img : Image} {i j : Nat} {name : Name} {cs rest : List Name}

/-! ## One lookup -/

/-- The last match among the entries that are read is that of the last slot found. -/
theorem lastMatch_mapM {slots : List Int} {entries : List (Name × Int)} {found : Int → Option Name}
    {ino : Int → Int} {read : Int → Except Fault (Name × Int)}
    (hread : ∀ d n, read d = .ok n → found d = some n.1 ∧ n.2 = ino d)
    (h : slots.mapM read = .ok entries) (r : Int) :
    entries.foldl (fun result entry => if entry.1 = name then entry.2 else result) r =
      ((slots.findRev? fun d => found d = some name).map ino).getD r := by
  induction slots generalizing entries r with
  | nil =>
      cases h
      rfl
  | cons d slots ih =>
      obtain ⟨entry, entries, hentry, hrest, rfl⟩ := Lib.Loops.mapM_cons_eq_ok.mp h
      obtain ⟨hfound, hino⟩ := hread d entry hentry
      rw [List.foldl_cons, ih hrest, List.findRev?]
      cases slots.findRev? fun d => found d = some name with
      | some d' => rfl
      | none =>
          by_cases hname : entry.1 = name
          · simp [hfound, hname, hino]
          · simp [hfound, hname]

theorem readDentry_found {d : Int} {entry : Name × Int} (h : readDentry img d = .ok entry) :
    slotName img d = some entry.1 ∧ entry.2 = int32 (dentryIno img d) := by
  rw [readDentry] at h
  unfold slotName
  split at h
  · rename_i name hname
    rw [hname]
    cases h
    exact ⟨rfl, by dsimp only⟩
  · cases h

theorem read_of_mapM {α β : Type} {read : α → Except Fault β} {as : List α} {bs : List β} {a : α}
    (h : as.mapM read = .ok bs) (ha : a ∈ as) : ∃ b, read a = .ok b := by
  induction as generalizing bs with
  | nil => cases ha
  | cons a' as ih =>
      obtain ⟨b, bs, hb, hbs, rfl⟩ := Lib.Loops.mapM_cons_eq_ok.mp h
      rcases List.mem_cons.mp ha with rfl | hmem
      · exact ⟨b, hb⟩
      · exact ih hbs hmem

/-- In a directory with its own index in its record `helper` is the lookup. -/
theorem helper_eq (h : Copyable img i) (hnumber : inoNumber img (inodeAddr img i) = i)
    (hinos : ∀ j, lookupEntry img i name = some j → j < 2147483648) :
    helper img (inodeAddr img i) name =
      .ok ((lookupEntry img i name).elim (-enoent) fun j => (j : Int)) := by
  have hslots : directorySlots img (inodeAddr img i) = slotsOf img i := by
    rw [directorySlots, hnumber, slotsOf]
  obtain ⟨hlive, hnames⟩ := h
  obtain ⟨entries, hentries⟩ : ∃ entries, (slotsOf img i).mapM (readDentry img) = .ok entries := by
    refine exists_mapM fun d hd => ?_
    obtain ⟨found, hfound⟩ := Option.isSome_iff_exists.mp (hnames d hd)
    rw [slotName] at hfound
    rw [readDentry, hfound]
    exact ⟨_, rfl⟩
  rw [helper, helperEntries, hslots, if_neg (by omega), hentries, ok_bind, lastMatch,
    lastMatch_mapM (fun d n => readDentry_found) hentries]
  rw [lookupEntry] at hinos ⊢
  cases hfind : (slotsOf img i).findRev? fun d => slotName img d = some name with
  | none => rfl
  | some d =>
      have hlt := hinos (dentryIno img d) (by rw [hfind]; rfl)
      rw [Option.map_some, Option.map_some, Option.getD_some, Option.elim_some,
        int32_of_bounds (by omega) (by omega)]

/-- `helper` only returns from directories that it can copy. -/
theorem copyable_of_helper {r : Int} (hnumber : inoNumber img (inodeAddr img i) = i)
    (h : helper img (inodeAddr img i) name = .ok r) : Copyable img i := by
  have hslots : directorySlots img (inodeAddr img i) = slotsOf img i := by
    rw [directorySlots, hnumber, slotsOf]
  obtain ⟨entries, hentries, _⟩ := bind_eq_ok.mp h
  rw [helperEntries, hslots] at hentries
  split at hentries
  · cases hentries
  · refine ⟨by omega, fun d hd => ?_⟩
    obtain ⟨entry, hentry⟩ := read_of_mapM hentries hd
    rw [(readDentry_found hentry).1]
    rfl

/-! ## The walk -/

/-- What `path_inode` returns where a walk ends. -/
def Arrival.code : Arrival → Int
  | .inode i => i
  | .missing => -enoent
  | .notDirectory => -enotdir

theorem Arrival.code_eq_missing {arrival : Arrival} :
    arrival.code = -enoent ↔ arrival = .missing := by
  cases arrival with
  | inode i =>
      refine iff_of_false (fun h => ?_) (fun h => by cases h)
      rw [code, enoent] at h
      omega
  | missing => exact iff_of_true rfl rfl
  | notDirectory => exact iff_of_false (by decide) (fun h => by cases h)

theorem Arrival.code_eq_notDirectory {arrival : Arrival} :
    arrival.code = -enotdir ↔ arrival = .notDirectory := by
  cases arrival with
  | inode i =>
      refine iff_of_false (fun h => ?_) (fun h => by cases h)
      rw [code, enotdir] at h
      omega
  | missing => exact iff_of_false (by decide) (fun h => by cases h)
  | notDirectory => exact iff_of_true rfl rfl

theorem resolvesRight_iff :
    ResolvesRight img cs ↔ pathInode img (render cs) = .ok (componentWalk img 0 cs).code := by
  unfold ResolvesRight
  constructor
  · rintro ⟨r, hr, hinode, hmissing, hnot⟩
    rw [hr]
    cases harrival : componentWalk img 0 cs with
    | inode i => rw [hinode i harrival]; rfl
    | missing => rw [hmissing.mpr harrival]; rfl
    | notDirectory => rw [hnot.mpr harrival]; rfl
  · intro h
    refine ⟨_, h, fun i hi => ?_, Arrival.code_eq_missing, Arrival.code_eq_notDirectory⟩
    rw [hi]
    rfl

theorem copyable_of_walk {r : Int} (hnumber : inoNumber img (inodeAddr img i) = i)
    (h : walk img (inodeAddr img i) name rest = .ok r) : Copyable img i := by
  cases rest with
  | nil => exact copyable_of_helper hnumber h
  | cons next rest =>
      rw [walk] at h
      obtain ⟨found, hfound, _⟩ := bind_eq_ok.mp h
      exact copyable_of_helper hnumber hfound

theorem componentWalk_none (h : lookupEntry img i name = none) :
    componentWalk img i (name :: rest) = .missing := by
  rw [componentWalk, h, Option.elim_none]

theorem componentWalk_some (h : lookupEntry img i name = some j) :
    componentWalk img i (name :: rest) =
      if rest = [] ∨ isDirectoryInode img j then componentWalk img j rest else .notDirectory := by
  rw [componentWalk, h, Option.elim_some]

theorem plainWalk_end (h : rest = [] ∨ lookupEntry img i name = none) :
    PlainWalk img i (name :: rest) ↔ Copyable img i := by
  rw [PlainWalk]
  refine ⟨fun hwalk => hwalk.1, fun hcopy => ⟨hcopy, fun j hj hne => ?_⟩⟩
  rcases h with hrest | hnone
  · exact absurd hrest hne
  · rw [hnone] at hj
    cases hj

theorem plainWalk_some (h : lookupEntry img i name = some j) (hrest : rest ≠ []) :
    PlainWalk img i (name :: rest) ↔ Copyable img i ∧ (isDirectoryInode img j →
      if plainDirectory (inodeMode img (inodeAddr img j)) then PlainWalk img j rest
      else componentWalk img j rest = .notDirectory) := by
  rw [PlainWalk, h]
  refine and_congr_right fun _ => ⟨fun hall => hall j rfl hrest, fun hone k hk _ => ?_⟩
  cases hk
  exact hone

/-- The loop of `path_inode` from a directory. -/
theorem walk_iff (hnumbers : ∀ j, Reached img j → inoNumber img (inodeAddr img j) = j)
    (hreached : Reached img i) (hdir : i = 0 ∨ isDirectoryInode img i) :
    walk img (inodeAddr img i) name rest = .ok (componentWalk img i (name :: rest)).code ↔
      PlainWalk img i (name :: rest) := by
  have hfound : ∀ {i j : Nat} {name : Name}, Reached img i → (i = 0 ∨ isDirectoryInode img i) →
      lookupEntry img i name = some j → Reached img j ∧ j < 2147483648 := by
    intro i j name hreached hdir hj
    have hentry : Reached img j := .entry hreached hdir hj
    have hbound := (int32_bounds (u32 img (inodeAddr img j + 32))).2
    have hself : int32 (u32 img (inodeAddr img j + 32)) = j := hnumbers j hentry
    exact ⟨hentry, by omega⟩
  induction rest generalizing i name with
  | nil =>
      rw [plainWalk_end (.inl rfl)]
      refine ⟨copyable_of_walk (hnumbers i hreached), fun hcopy => ?_⟩
      rw [walk, helper_eq hcopy (hnumbers i hreached) fun j hj => (hfound hreached hdir hj).2]
      cases hlookup : lookupEntry img i name with
      | none => rw [componentWalk_none hlookup]; rfl
      | some j => rw [componentWalk_some hlookup, if_pos (.inl rfl)]; rfl
  | cons next rest ih =>
      by_cases hcopy : Copyable img i
      case neg =>
          refine iff_of_false (fun h => hcopy ?_) fun h => hcopy h.1
          exact copyable_of_walk (hnumbers i hreached) h
      rw [walk, helper_eq hcopy (hnumbers i hreached) fun j hj => (hfound hreached hdir hj).2,
        ok_bind]
      cases hlookup : lookupEntry img i name with
      | none =>
          rw [plainWalk_end (.inr hlookup), componentWalk_none hlookup]
          exact iff_of_true rfl hcopy
      | some j =>
          obtain ⟨hj, _⟩ := hfound hreached hdir hlookup
          have hne : (j : Int) ≠ -enoent := by
            unfold enoent
            omega
          rw [plainWalk_some hlookup (List.cons_ne_nil _ _), componentWalk_some hlookup,
            Option.elim_some, if_neg hne]
          by_cases hisDir : isDirectoryInode img j
          · have hgo : next :: rest = [] ∨ isDirectoryInode img j := .inr hisDir
            rw [if_pos hgo]
            -- A directory passes the mask exactly if it has no further bit.
            by_cases hmask : plainDirectory (inodeMode img (inodeAddr img j))
            · rw [if_pos hmask, if_pos hmask]
              refine (ih hj (.inr hisDir)).trans ?_
              exact ⟨fun h => ⟨hcopy, fun _ => h⟩, fun h => h.2 hisDir⟩
            · rw [if_neg hmask, if_neg hmask, Except.ok.injEq, eq_comm, Arrival.code_eq_notDirectory]
              exact ⟨fun h => ⟨hcopy, fun _ => h⟩, fun h => h.2 hisDir⟩
          · have hmask : ¬ plainDirectory (inodeMode img (inodeAddr img j)) := fun h =>
              hisDir (sIsDir_of_plainDirectory h)
            rw [if_neg hmask, if_neg (by simp [hisDir])]
            exact iff_of_true rfl ⟨hcopy, fun h => absurd h hisDir⟩

/-- `path_inode` resolves a path as the component walk does exactly if the walk is plain. -/
theorem resolvesRight_iff_plainWalk
    (hnumbers : ∀ j, Reached img j → inoNumber img (inodeAddr img j) = j)
    (hcs : ∀ c ∈ cs, c ≠ [] ∧ slash ∉ c) (hlen : (render cs).length < 4096) :
    ResolvesRight img cs ↔ PlainWalk img 0 cs := by
  rw [resolvesRight_iff]
  cases cs with
  | nil => exact iff_of_true rfl trivial
  | cons c cs =>
      rw [pathInode_cons hcs hlen]
      exact walk_iff hnumbers .root (.inl rfl)

/-! ## A directory with the setgid bit -/

/-- A root directory whose only entry is the empty directory `"d"`, inode 1 with mode
`02755`. -/
def setgidImage : Image :=
  let img : Image := fun _ => 0
  let img := set32 (set32 (set32 (set32 img 24 1) 28 2) 32 4) 36 2
  let img := setExtentCount (setSize (setMode img 4096 0o040755) 4096 256) 4096 1
  let img := setInoNumber (setMode img 4160 0o042755) 4160 1
  putDentry (setExtentLength img 8192 0 1) 16384 1 [100]

theorem slotsOf_setgidImage : slotsOf setgidImage 0 = [16384] ∧ slotsOf setgidImage 1 = [] := by
  decide

theorem slot_setgidImage :
    slotName setgidImage 16384 = some [100] ∧ dentryIno setgidImage 16384 = 1 := by
  decide

theorem lookupEntry_setgidImage {name : Name} {j : Nat} :
    (lookupEntry setgidImage 0 name = some j ↔ name = [100] ∧ j = 1) ∧
      lookupEntry setgidImage 1 name = none := by
  obtain ⟨hroot, hempty⟩ := slotsOf_setgidImage
  obtain ⟨hname, hino⟩ := slot_setgidImage
  refine ⟨?_, by rw [lookupEntry, hempty]; rfl⟩
  rw [lookupEntry, hroot, List.findRev?, List.findRev?, hname]
  by_cases h : [100] = name
  · subst h
    simp [hino, eq_comm]
  · have hne : name ≠ [100] := Ne.symm h
    simp [h, hne]

theorem setgidImage_numbers {i : Nat} (h : Reached setgidImage i) :
    inoNumber setgidImage (inodeAddr setgidImage i) = i := by
  have hzero : inoNumber setgidImage (inodeAddr setgidImage (0 : Nat)) = (0 : Nat) := by
    decide
  have hone : inoNumber setgidImage (inodeAddr setgidImage (1 : Nat)) = (1 : Nat) := by
    decide
  have hcases : i = 0 ∨ i = 1 := by
    induction h with
    | root => exact .inl rfl
    | entry _ _ hfound ih =>
        rcases ih with rfl | rfl
        · exact .inr (lookupEntry_setgidImage.1.mp hfound).2
        · rw [(lookupEntry_setgidImage (j := 0)).2] at hfound
          cases hfound
  rcases hcases with rfl | rfl
  · exact hzero
  · exact hone

/-- The walk to `"/d"`. -/
theorem resolvesRight_iff_plainWalk_setgid :
    ResolvesRight setgidImage [[100]] ↔ PlainWalk setgidImage 0 [[100]] :=
  resolvesRight_iff_plainWalk (fun _ => setgidImage_numbers) (by decide) (by decide)

/-- The missing path `"/d/x"` gives `-ENOTDIR`. -/
theorem setgid_directory_not_passed :
    ¬ ∀ (img : Image) (cs : List Name),
      (∀ j : Nat, Reached img j → inoNumber img (inodeAddr img j) = j) →
        (∀ c ∈ cs, c ≠ [] ∧ slash ∉ c) → (render cs).length < 4096 → ResolvesRight img cs := by
  intro hclaim
  have hright := hclaim setgidImage [[100], [120]] (fun _ => setgidImage_numbers) (by decide)
    (by decide)
  have hpath : pathInode setgidImage (render [[100], [120]]) = .ok (-enotdir) := by
    decide
  have hwalk : componentWalk setgidImage 0 [[100], [120]] = .missing := by
    decide
  rw [resolvesRight_iff, hpath, hwalk] at hright
  cases hright

end UoftOs.FileSystem
