import UoftOs.FileSystem.Fresh
import UoftOs.Lib.Loops

/-!
# Listing a directory

`a1fs_readdir` and `helper` walk a directory with two triple loops that end in
different places. Written out loop by loop both read the same prefix of the slots,
so a name is found exactly if it is listed.
-/

namespace UoftOs.FileSystem

open Lib.ByteMemory Lib.Loops

/-! ## The loops -/

/-- The loop over the 16 slots of block `j`, into arrays of 512 elements. -/
def slotLoop {α : Type} (img : Image) (count : Int) (read : Int → Except Fault α) (j : Int) :
    List α → Except Fault (List α) :=
  loopWhile (fun copied => decide ((copied.length : Int) < count)) (push .overflow 512 read)
    (blockSlots img j)

/-- The three loops of `helper`. Only the innermost one tests the entry count. -/
def helperArrays (img : Image) (root : Int) : Except Fault (List (Name × Int)) :=
  let entryCount := int32 (inodeSize img root / 256 : Nat)
  let eBlock := extentAddr img (inoNumber img root)
  loopWhile (fun _ => true)
    (fun (i : Nat) => loopWhile (fun _ => true)
      (fun j => slotLoop img entryCount (readDentry img) j) (extentBlocks img eBlock i))
    (List.range (extentCount img root).toNat) []

/-- `helper`, loop by loop. -/
def helperLoops (img : Image) (root : Int) (name : Name) : Except Fault Int := do
  let entries ← helperArrays img root
  .ok (lastMatch name entries)

/-- The name in a directory slot. -/
def readName (img : Image) (d : Int) : Except Fault Name :=
  (readDentry img d).map Prod.fst

/-- The three loops of `a1fs_readdir` over the directory `ino`. The two inner ones test
the entry count, and the extent block is found by the inode's index. -/
def readdirNames (img : Image) (ino : Int) : Except Fault (List Name) :=
  let eBlock := extentAddr img ino
  let inode := inodeAddr img ino
  let entryNum := int32 (inodeSize img inode / 256 : Nat)
  loopWhile (fun _ => true)
    (fun (i : Nat) => loopWhile (fun copied => decide ((copied.length : Int) < entryNum))
      (fun j => slotLoop img entryNum (readName img) j) (extentBlocks img eBlock i))
    (List.range (extentCount img inode).toNat) []

/-- `a1fs_readdir`: the result and the names passed to `filler`. -/
def a1fsReaddir (img : Image) (path : Path) : Except Fault (Int × List Name) := do
  let directoryIno ← pathInode img path
  if path.head? ≠ some slash then .ok (-1, [])
  else (readdirNames img directoryIno).map fun names => (0, names)

variable {img : Image} {root i : Int} {name : Name} {path : Path}

/-! ## The slots that are read -/

section Slots

variable {α : Type} {count e n : Int} {read : Int → Except Fault α} {copied : List α}

/-- Loops over the extents and the blocks, of which the outer ones test the count or
nothing, read a prefix of the slots. -/
theorem nested_slotLoop_eq_ok {outer : List α → Bool}
    (weaker : ∀ s : List α, decide ((s.length : Int) < count) → outer s) :
    loopWhile (fun _ => true) (fun (i : Nat) => loopWhile outer
        (fun j => slotLoop img count read j) (extentBlocks img e i)) (List.range n.toNat) [] =
        .ok copied ↔
      (((fileBlocks img e n).flatMap (blockSlots img)).take count.toNat).mapM read = .ok copied ∧
        copied.length ≤ 512 := by
  have htest : (fun s : List α => decide ((s.length : Int) < count)) =
      fun s => decide (s.length < count.toNat) := by
    funext s
    rw [decide_eq_decide]
    omega
  have hblocks : (fun (i : Nat) => loopWhile outer (fun j => slotLoop img count read j)
      (extentBlocks img e i)) = fun (i : Nat) =>
        loopWhile (fun s => decide (s.length < count.toNat)) (push .overflow 512 read)
          ((extentBlocks img e i).flatMap (blockSlots img)) := by
    funext i s
    rw [← htest]
    exact loopWhile_nested (blockSlots img) weaker (extentBlocks img e i)
  rw [hblocks, loopWhile_nested _ (fun _ _ => rfl), loopWhile_push_eq_ok (Nat.zero_le _),
    fileBlocks, List.flatMap_assoc]
  constructor
  · rintro ⟨bs, hbs, rfl, hle⟩
    exact ⟨hbs, hle⟩
  · rintro ⟨hbs, hle⟩
    exact ⟨copied, hbs, rfl, hle⟩

end Slots

theorem length_of_mapM {α β : Type} {read : α → Except Fault β} {as : List α} {bs : List β}
    (h : as.mapM read = .ok bs) : bs.length = as.length := by
  induction as generalizing bs with
  | nil =>
      cases h
      rfl
  | cons a as ih =>
      obtain ⟨b, bs, _, hbs, rfl⟩ := mapM_cons_eq_ok.mp h
      rw [List.length_cons, List.length_cons, ih hbs]

/-- The arrays of `helper` hold the entries of the directory's slots. -/
theorem helperArrays_eq_ok {entries : List (Name × Int)} :
    helperArrays img root = .ok entries ↔ helperEntries img root = .ok entries := by
  refine (nested_slotLoop_eq_ok fun _ _ => rfl).trans ?_
  rw [helperEntries, ← directorySlots]
  constructor
  · rintro ⟨hread, hle⟩
    rw [length_of_mapM hread] at hle
    rw [if_neg (by omega), hread]
  · intro h
    split at h
    · cases h
    · refine ⟨h, ?_⟩
      rw [length_of_mapM h]
      omega

/-- The triple loop computes `helper`. -/
theorem helperLoops_eq_ok {r : Int} :
    helperLoops img root name = .ok r ↔ helper img root name = .ok r := by
  rw [helperLoops, helper, bind_eq_ok, bind_eq_ok]
  simp only [helperArrays_eq_ok]

/-- With its own index in the record, `a1fs_readdir` lists the slots `helper` copies. -/
theorem readdirNames_eq_ok {names : List Name} (hnumber : inoNumber img (inodeAddr img i) = i) :
    readdirNames img i = .ok names ↔
      (directorySlots img (inodeAddr img i)).mapM (readName img) = .ok names ∧
        names.length ≤ 512 := by
  refine (nested_slotLoop_eq_ok fun _ h => h).trans ?_
  rw [directorySlots, hnumber]

/-! ## Found and listed -/

theorem exists_mapM {α β : Type} {read : α → Except Fault β} {as : List α}
    (h : ∀ a ∈ as, ∃ b, read a = .ok b) : ∃ bs, as.mapM read = .ok bs := by
  induction as with
  | nil => exact ⟨[], rfl⟩
  | cons a as ih =>
      obtain ⟨b, hb⟩ := h a List.mem_cons_self
      obtain ⟨bs, hbs⟩ := ih fun c hc => h c (List.mem_cons_of_mem a hc)
      exact ⟨b :: bs, mapM_cons_eq_ok.mpr ⟨b, bs, hb, hbs, rfl⟩⟩

theorem mapM_map {α β γ : Type} {read : α → Except Fault β} {f : β → γ} {as : List α}
    {bs : List β} (h : as.mapM read = .ok bs) :
    as.mapM (fun a => (read a).map f) = .ok (bs.map f) := by
  induction as generalizing bs with
  | nil =>
      cases h
      rfl
  | cons a as ih =>
      obtain ⟨b, bs, hb, hbs, rfl⟩ := mapM_cons_eq_ok.mp h
      exact mapM_cons_eq_ok.mpr ⟨f b, bs.map f, by rw [hb]; rfl, ih hbs, rfl⟩

theorem getElem_mapM {α β : Type} {read : α → Except Fault β} {as : List α} {bs : List β} {k : Nat}
    (h : as.mapM read = .ok bs) (hk : k < bs.length) :
    ∃ a, as[k]? = some a ∧ read a = .ok bs[k] := by
  induction as generalizing bs k with
  | nil =>
      cases h
      exact absurd hk (Nat.not_lt_zero k)
  | cons a as ih =>
      obtain ⟨b, bs, hb, hbs, rfl⟩ := mapM_cons_eq_ok.mp h
      cases k with
      | zero => exact ⟨a, rfl, hb⟩
      | succ k => exact ih hbs (Nat.lt_of_succ_lt_succ hk)

theorem lastMatch_concat (entries : List (Name × Int)) (entry : Name × Int) :
    lastMatch name (entries ++ [entry]) =
      if entry.1 = name then entry.2 else lastMatch name entries := by
  rw [lastMatch, List.foldl_append]
  rfl

/-- The entry that `helper` takes is the last one with the name. -/
theorem lastMatch_cases (entries : List (Name × Int)) :
    (lastMatch name entries = -enoent ∧ ∀ entry ∈ entries, entry.1 ≠ name) ∨
      ∃ k, ∃ hk : k < entries.length, entries[k].1 = name ∧
        lastMatch name entries = entries[k].2 ∧
          ∀ l, k < l → ∀ hl : l < entries.length, entries[l].1 ≠ name := by
  induction entries using List.reverseRecOn with
  | nil => exact .inl ⟨rfl, fun _ h => nomatch h⟩
  | append_singleton entries entry ih =>
      rw [lastMatch_concat]
      by_cases hname : entry.1 = name
      · rw [if_pos hname]
        refine .inr ⟨entries.length, by simp, by simpa using hname, by simp, ?_⟩
        intro l hl hlt
        rw [List.length_append, List.length_singleton] at hlt
        omega
      · rw [if_neg hname]
        rcases ih with ⟨hnone, hne⟩ | ⟨k, hk, heq, hlast, hlater⟩
        · refine .inl ⟨hnone, fun e he => ?_⟩
          rcases List.mem_append.mp he with hmem | hmem
          · exact hne e hmem
          · rw [List.mem_singleton.mp hmem]
            exact hname
        · have hk' : k < (entries ++ [entry]).length := by
            rw [List.length_append]
            omega
          refine .inr ⟨k, hk', ?_, ?_, ?_⟩
          · rwa [List.getElem_append_left hk]
          · rwa [List.getElem_append_left hk]
          · intro l hl hlt
            rcases Nat.lt_or_ge l entries.length with hin | hout
            · rw [List.getElem_append_left hin]
              exact hlater l hl hin
            · rw [List.getElem_append_right hout]
              simpa using hname

theorem readDentry_eq_ok {d : Int} {entry : Name × Int} (hino : dentryIno img d < 2147483648)
    (h : readDentry img d = .ok entry) :
    StringAt img (d + 4) entry.1 ∧ entry.2 = dentryIno img d := by
  rw [readDentry] at h
  split at h
  · rename_i name hname
    have hself : int32 (dentryIno img d) = dentryIno img d := int32_of_bounds (by omega) (by omega)
    rw [hself] at h
    cases h
    exact ⟨stringAt_of_cstr hname, rfl⟩
  · cases h

/-- `helper` finds a name in a directory exactly if `a1fs_readdir` passes it to `filler`,
and the inode it returns is that of the last slot with the name. -/
theorem lookup_agrees_with_listing {i : Nat} (hpath : pathInode img path = .ok (i : Int))
    (hnumber : inoNumber img (inodeAddr img i) = i)
    (hlive : (directorySlots img (inodeAddr img i)).length ≤ 512)
    (hnames : ∀ d ∈ directorySlots img (inodeAddr img i), (0 : UInt8) ∈ bytesAt img (d + 4) 252)
    (hinos : ∀ d ∈ directorySlots img (inodeAddr img i), dentryIno img d < 2147483648) :
    ∃ names, a1fsReaddir img path = .ok (0, names) ∧
      ∀ name, ∃ r, helperLoops img (inodeAddr img i) name = .ok r ∧
        (r ≠ -enoent ↔ name ∈ names) ∧
          ∀ k : Nat, names[k]? = some name → (∀ l : Nat, k < l → names[l]? ≠ some name) →
            ∃ d, (directorySlots img (inodeAddr img i))[k]? = some d ∧
              StringAt img (d + 4) name ∧ r = dentryIno img d := by
  obtain ⟨entries, hentries⟩ : ∃ entries,
      (directorySlots img (inodeAddr img i)).mapM (readDentry img) = .ok entries := by
    refine exists_mapM fun d hd => ?_
    rw [readDentry, cstr, if_pos (hnames d hd)]
    exact ⟨_, rfl⟩
  have hcopied : helperEntries img (inodeAddr img i) = .ok entries := by
    rw [helperEntries, if_neg (by omega), hentries]
  have hlisted : readdirNames img i = .ok (entries.map Prod.fst) := by
    rw [readdirNames_eq_ok hnumber]
    refine ⟨mapM_map hentries, ?_⟩
    rw [List.length_map, length_of_mapM hentries]
    exact hlive
  have habsolute : path.head? = some slash := by
    by_contra hne
    rw [pathInode, if_pos hne] at hpath
    cases hpath
  refine ⟨entries.map Prod.fst, ?_, fun name => ⟨lastMatch name entries, ?_, ?_, ?_⟩⟩
  · rw [a1fsReaddir, hpath, ok_bind, if_neg (not_not.mpr habsolute), hlisted]
    rfl
  · rw [helperLoops_eq_ok, helper, hcopied]
    rfl
  · rcases lastMatch_cases entries with ⟨hnone, hne⟩ | ⟨k, hk, hname, hlast, _⟩
    · refine iff_of_false (not_not.mpr hnone) fun hmem => ?_
      obtain ⟨entry, hentry, hfst⟩ := List.mem_map.mp hmem
      exact hne entry hentry hfst
    · refine iff_of_true ?_ (List.mem_map.mpr ⟨_, List.getElem_mem hk, hname⟩)
      obtain ⟨d, hd, hread⟩ := getElem_mapM hentries hk
      have hino := hinos d (List.mem_of_getElem? hd)
      rw [hlast, (readDentry_eq_ok hino hread).2]
      unfold enoent
      omega
  · intro k hk hlater
    rw [List.getElem?_map, Option.map_eq_some_iff] at hk
    obtain ⟨entry, hentry, hname⟩ := hk
    obtain ⟨hlt, rfl⟩ := List.getElem?_eq_some_iff.mp hentry
    obtain ⟨d, hd, hread⟩ := getElem_mapM hentries hlt
    obtain ⟨hstring, hino⟩ := readDentry_eq_ok (hinos d (List.mem_of_getElem? hd)) hread
    rw [hname] at hstring
    refine ⟨d, hd, hstring, ?_⟩
    rw [← hino]
    rcases lastMatch_cases entries with ⟨_, hne⟩ | ⟨l, hl, hname', hlast, hrest⟩
    · exact absurd hname (hne _ (List.getElem_mem hlt))
    · rcases Nat.lt_trichotomy k l with hkl | rfl | hlk
      · refine absurd ?_ (hlater l hkl)
        rw [List.getElem?_map, List.getElem?_eq_getElem hl, Option.map_some, hname']
      · exact hlast
      · exact absurd hname (hrest k hlk hlt)

/-- The slots of the fresh root directory. -/
theorem lookup_agrees_with_listing_root :
    ∃ names, a1fsReaddir (balancedImage 2) [slash] = .ok (0, names) ∧
      ∀ name, ∃ r, helperLoops (balancedImage 2) (inodeAddr (balancedImage 2) (0 : Nat)) name =
          .ok r ∧
        (r ≠ -enoent ↔ name ∈ names) ∧
          ∀ k : Nat, names[k]? = some name → (∀ l : Nat, k < l → names[l]? ≠ some name) →
            ∃ d, (directorySlots (balancedImage 2) (inodeAddr (balancedImage 2) (0 : Nat)))[k]? =
                some d ∧
              StringAt (balancedImage 2) (d + 4) name ∧ r = dentryIno (balancedImage 2) d := by
  have hwf := balancedImage_wellFormed (n := 2) (by decide) (by decide)
  have hat := hwf.hold.nodeAt 0 rootNode rfl
  have haddr := hwf.of.inodeAddr (Nat.zero_le _)
  have hslots := hat.directorySlots rootNode_ok hwf.of (by decide) (by decide)
  have hread : ∀ d ∈ directorySlots (balancedImage 2) (inodeAddr (balancedImage 2) (0 : Nat)),
      (0 : UInt8) ∈ bytesAt (balancedImage 2) (d + 4) 252 ∧ dentryIno (balancedImage 2) d = 0 := by
    intro d hd
    rw [haddr, hslots] at hd
    obtain ⟨k, hk, rfl⟩ := List.mem_map.mp hd
    have hlt : k < rootNode.entries.length := List.mem_range.mp hk
    obtain ⟨hname, hino⟩ := hat.slots k hlt
    obtain ⟨hfree, hshort⟩ := (hwf.closed.ok 0 rootNode rfl).names _ (List.getElem_mem hlt)
    have hroot : ∀ e ∈ rootNode.entries, e.2 = 0 := by decide
    refine ⟨zero_mem_of_cstr (hname.cstr_bytesAt hfree hshort), ?_⟩
    rw [hino, hroot _ (List.getElem_mem hlt)]
  refine lookup_agrees_with_listing rfl ?_ ?_ (fun d hd => (hread d hd).1) fun d hd => ?_
  · rw [haddr, hat.number]
  · rw [haddr, hslots]
    decide
  · rw [(hread d hd).2]
    decide

end UoftOs.FileSystem
