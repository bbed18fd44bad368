import Mathlib.Data.List.Find
import UoftOs.FileSystem.Linking

/-!
# Freed blocks and removed entries

Both removing calls clear the bits of an inode and of its blocks, and then close the
gap in the parent directory with its last entry.
-/

namespace UoftOs.FileSystem

open Lib.ByteMemory Lib.Frames

variable {L : Layout} {img img' img'' : Image} {nodes : Nodes} {nd pn : Node} {i j k p : Nat}
  {bs : List Nat} {name : Name}

namespace Layout

/-- The images have the same inode table, extents and data. -/
def SameTail (L : Layout) (img' img : Image) : Prop :=
  ∀ x, 4096 * (L.inodeTable : Int) ≤ x → img' x = img x

theorem SameTail.refl (L : Layout) (img : Image) : L.SameTail img img := fun _ _ => rfl

theorem SameTail.trans (h' : L.SameTail img'' img') (h : L.SameTail img' img) :
    L.SameTail img'' img := by
  intro x hx
  rw [h' x hx, h x hx]

theorem sameTail_modify_dataMap {value : Bool} (hi : i < 65536) :
    L.SameTail (modify img L.dataMapAt i value) img := by
  have hlt := (L.dataByte_bounds hi).2
  intro x hx
  exact modify_apply_of_ne value (by omega)

theorem sameTail_modify_inodeMap {value : Bool} (hi : i < L.inodeBitCount) :
    L.SameTail (modify img L.inodeMapAt i value) img := by
  have hlt := (L.inodeByte_bounds hi).2
  have hlast := L.dataMap_lt
  have hmap : L.dataMapAt = 4096 * (L.dataMap : Int) := rfl
  intro x hx
  exact modify_apply_of_ne value (by omega)

theorem sameTail_setFreeBlocksCount {v : Int} : L.SameTail (setFreeBlocksCount img v) img := by
  have := L.head_pos
  intro x hx
  exact setFreeBlocksCount_apply (by omega)

theorem sameTail_setFreeInodesCount {v : Int} : L.SameTail (setFreeInodesCount img v) img := by
  have := L.head_pos
  intro x hx
  exact setFreeInodesCount_apply (by omega)

end Layout

theorem Node.At.of_sameTail (h : nd.At L img i) (hok : nd.Ok L) (same : L.SameTail img' img) :
    nd.At L img' i := by
  have hextents := L.extents_lt
  have hdata := L.extentBlocks
  refine h.congr hok ?_ ?_ ?_
  · intro x hlo hhi
    unfold Layout.recordAt at hlo
    exact same x (by omega)
  · intro x hlo hhi
    unfold Layout.extentAt at hlo
    exact same x (by omega)
  · intro k hk x hlo hhi
    unfold Node.slotAt Layout.blockAt at hlo
    exact same x (by omega)

/-! ## Freed blocks -/

/-- What stands behind a cleared bit leaves layout, bits and nodes alone. -/
structure HeadUpdate (L : Layout) (after : Image → Image) : Prop where
  of : ∀ img, L.Of img → L.Of (after img)
  tail : ∀ img, L.SameTail (after img) img
  dataBit : ∀ img b, bitSet (after img) L.dataMapAt b = bitSet img L.dataMapAt b
  inodeBit : ∀ img i, bitSet (after img) L.inodeMapAt i = bitSet img L.inodeMapAt i
  freeInodes : ∀ img, freeInodesCount (after img) = freeInodesCount img

theorem headUpdate_id : HeadUpdate L id where
  of := fun _ h => h
  tail := fun _ => Layout.SameTail.refl _ _
  dataBit := fun _ _ => rfl
  inodeBit := fun _ _ => rfl
  freeInodes := fun _ => rfl

/-- What `a1fs_unlink` does behind each cleared bit. -/
def countBlock (img : Image) : Image := setFreeBlocksCount img (freeBlocksCount img + 1)

theorem headUpdate_count : HeadUpdate L countBlock where
  of := fun _ h => h.setFreeBlocksCount
  tail := fun _ => Layout.sameTail_setFreeBlocksCount
  dataBit := fun _ _ => bitSet_setFreeBlocksCount L.dataMapAt_ge
  inodeBit := fun _ _ => bitSet_setFreeBlocksCount L.inodeMapAt_ge
  freeInodes := fun _ => freeInodesCount_setFreeBlocksCount

/-- Clear the bits of the blocks, with `after` behind each. -/
def Layout.released (L : Layout) (after : Image → Image) (bs : List Nat) (img : Image) : Image :=
  bs.foldl (fun img (b : Nat) => after (modify img L.dataMapAt b false)) img

section Released

variable {after : Image → Image} (hafter : HeadUpdate L after)
include hafter

theorem released_sameTail (hbs : ∀ b ∈ bs, b < 65536) : L.SameTail (L.released after bs img) img := by
  induction bs generalizing img with
  | nil => exact Layout.SameTail.refl _ _
  | cons b bs ih =>
      have hrest : L.SameTail (L.released after bs (after (modify img L.dataMapAt b false)))
          (after (modify img L.dataMapAt b false)) :=
        ih fun c hc => hbs c (List.mem_cons_of_mem _ hc)
      exact hrest.trans ((hafter.tail _).trans
        (Layout.sameTail_modify_dataMap (hbs b List.mem_cons_self)))

theorem released_of (hof : L.Of img) : L.Of (L.released after bs img) := by
  induction bs generalizing img with
  | nil => exact hof
  | cons b bs ih => exact ih (hafter.of _ (hof.modify L.dataMapAt_ge))

omit hafter in
theorem released_id_freeBlocks :
    freeBlocksCount (L.released id bs img) = freeBlocksCount img := by
  induction bs generalizing img with
  | nil => rfl
  | cons b bs ih =>
      have hrest : freeBlocksCount (L.released id (b :: bs) img) =
          freeBlocksCount (modify img L.dataMapAt b false) := ih
      rw [hrest, freeBlocksCount_modify L.dataMapAt_ge]

omit hafter in
theorem released_count_freeBlocks :
    freeBlocksCount (L.released countBlock bs img) = uint32 (freeBlocksCount img + bs.length) := by
  induction bs generalizing img with
  | nil =>
      have hlt : freeBlocksCount img < 4294967296 := load_lt
      change freeBlocksCount img = uint32 (freeBlocksCount img + (0 : Nat))
      unfold uint32
      omega
  | cons b bs ih =>
      have hrest : freeBlocksCount (L.released countBlock (b :: bs) img) =
          uint32 (freeBlocksCount (countBlock (modify img L.dataMapAt b false)) + bs.length) := ih
      rw [hrest, countBlock, freeBlocksCount_setFreeBlocksCount,
        freeBlocksCount_modify L.dataMapAt_ge, List.length_cons]
      unfold uint32
      omega

theorem released_freeInodes :
    freeInodesCount (L.released after bs img) = freeInodesCount img := by
  induction bs generalizing img with
  | nil => rfl
  | cons b bs ih =>
      have hrest : freeInodesCount (L.released after (b :: bs) img) =
          freeInodesCount (after (modify img L.dataMapAt b false)) := ih
      rw [hrest, hafter.freeInodes, freeInodesCount_modify L.dataMapAt_ge]

theorem released_inodeBit (hi : i < L.inodeBitCount) :
    bitSet (L.released after bs img) L.inodeMapAt i = bitSet img L.inodeMapAt i := by
  induction bs generalizing img with
  | nil => rfl
  | cons b bs ih =>
      have hrest : bitSet (L.released after (b :: bs) img) L.inodeMapAt i =
          bitSet (after (modify img L.dataMapAt b false)) L.inodeMapAt i := ih
      rw [hrest, hafter.inodeBit, Layout.inodeBit_modify_dataMap hi]

theorem released_dataBit :
    bitSet (L.released after bs img) L.dataMapAt j =
      (bitSet img L.dataMapAt j && decide (j ∉ bs)) := by
  induction bs generalizing img with
  | nil => simp [Layout.released]
  | cons b bs ih =>
      have hrest : bitSet (L.released after (b :: bs) img) L.dataMapAt j =
          (bitSet (after (modify img L.dataMapAt b false)) L.dataMapAt j && decide (j ∉ bs)) := ih
      rw [hrest, hafter.dataBit, bitSet_modify]
      by_cases hj : j = b
      · simp [hj]
      · simp [hj]

/-- The number of used blocks falls by the number of freed ones. -/
theorem released_usedBlocks (hnodup : bs.Nodup)
    (hset : ∀ b ∈ bs, b < 65536 ∧ bitSet img L.dataMapAt b = true) :
    (L.tally (L.released after bs img)).usedBlocks + bs.length = (L.tally img).usedBlocks := by
  have hsub : bs.toFinset ⊆ (Finset.range 65536).filter fun b => bitSet img L.dataMapAt b := by
    intro b hb
    have hmem := hset b (List.mem_toFinset.mp hb)
    simpa using hmem
  have hdiff : ((Finset.range 65536).filter fun b => bitSet (L.released after bs img) L.dataMapAt b)
      = ((Finset.range 65536).filter fun b => bitSet img L.dataMapAt b) \ bs.toFinset := by
    ext b
    simp only [Finset.mem_filter, Finset.mem_range, Finset.mem_sdiff, List.mem_toFinset,
      released_dataBit hafter, Bool.and_eq_true, decide_eq_true_eq]
    tauto
  have hcard := Finset.card_sdiff_add_card_eq_card hsub
  rw [List.toFinset_card_of_nodup hnodup, ← hdiff] at hcard
  simp only [Layout.tally, setBits]
  exact hcard

omit hafter in
/-- The loop reads extents behind the bitmaps that it writes. -/
theorem sameTail_extents (same : L.SameTail img' img) (k : Nat) :
    extentCount img' (L.recordAt i) = extentCount img (L.recordAt i) ∧
      extentBlocks img' (L.extentAt i) k = extentBlocks img (L.extentAt i) k := by
  have hextents := L.extents_lt
  have hrecord : 4096 * (L.inodeTable : Int) ≤ L.recordAt i := by
    unfold Layout.recordAt
    omega
  have hblock : 4096 * (L.inodeTable : Int) ≤ L.extentAt i := by
    unfold Layout.extentAt
    omega
  have hstart : extentStart img' (L.extentAt i) k = extentStart img (L.extentAt i) k :=
    u32_congr fun x hlo _ => same x (by omega)
  have hlength : extentLength img' (L.extentAt i) k = extentLength img (L.extentAt i) k :=
    u32_congr fun x hlo _ => same x (by omega)
  refine ⟨i32_congr fun x hlo _ => same x (by omega), ?_⟩
  rw [extentBlocks, extentBlocks, hstart, hlength]

/-- The rounds of the loop from extent `k` on, on an image in which only bits and
counters have changed. -/
theorem releaseExtents_from {n fuel : Nat} {img₀ : Image} (same : L.SameTail img img₀)
    (hcount : (extentCount img₀ (L.recordAt i)).toNat = k + n)
    (hfile : ((List.range' k n).flatMap fun j : Nat => extentBlocks img₀ (L.extentAt i) j) =
      bs.map fun (b : Nat) => (b : Int))
    (hbs : ∀ b ∈ bs, b < 65536) (hfuel : n ≤ fuel) :
    releaseExtents (L.recordAt i) (L.extentAt i) L.dataMapAt after fuel k img =
      L.released after bs img := by
  induction n generalizing img k bs fuel with
  | zero =>
      obtain rfl : bs = [] := by
        rw [List.range'_zero, List.flatMap_nil] at hfile
        exact List.map_eq_nil_iff.mp hfile.symm
      cases fuel with
      | zero => rfl
      | succ fuel =>
          rw [releaseExtents, (sameTail_extents same k).1, if_neg (by omega)]
          rfl
  | succ n ih =>
      obtain ⟨fuel, rfl⟩ := Nat.exists_eq_succ_of_ne_zero (show fuel ≠ 0 by omega)
      rw [List.range'_succ, List.flatMap_cons] at hfile
      obtain ⟨first, rest, rfl, hfirst, hrest⟩ := List.map_eq_append_iff.mp hfile.symm
      have hone : releaseExtent img L.dataMapAt (L.extentAt i) k after =
          L.released after first img := by
        rw [releaseExtent, (sameTail_extents same k).2, ← hfirst, List.foldl_map]
        rfl
      have htail : L.SameTail (L.released after first img) img :=
        released_sameTail hafter fun b hb => hbs b (List.mem_append_left _ hb)
      rw [releaseExtents, (sameTail_extents same k).1, if_pos (by omega), hone,
        ih (htail.trans same) (by omega) hrest.symm
          (fun b hb => hbs b (List.mem_append_right _ hb)) (by omega),
        Layout.released, Layout.released, Layout.released, List.foldl_append]

/-- The loop over the extents frees the blocks that they list. -/
theorem releaseExtents_eq {fuel : Nat}
    (hfile : fileBlocks img (L.extentAt i) (extentCount img (L.recordAt i)) =
      bs.map fun (b : Nat) => (b : Int))
    (hbs : ∀ b ∈ bs, b < 65536) (hfuel : extentCount img (L.recordAt i) ≤ fuel) :
    releaseExtents (L.recordAt i) (L.extentAt i) L.dataMapAt after fuel 0 img =
      L.released after bs img := by
  rw [fileBlocks, List.range_eq_range'] at hfile
  exact releaseExtents_from hafter (Layout.SameTail.refl L img) (Nat.zero_add _).symm hfile hbs
    (by omega)

end Released

/-! ## The entry of a removed inode -/

/-- The loop over the slots finds nothing, or the last entry, or the name in the
place of the last entry has an end. -/
def RemovalReads (img : Image) (parent e : Int) (name : Name) : Prop :=
  ∀ slot, findSlot img parent e name = some slot →
    (slot.2 : Int) = numLastEntry img parent - 1 ∨
      ∃ s, cstr (bytesAt img (lastSlot img parent e + 4) 252) = some s

/-- The extents of the node in its extent block. -/
def Node.ExtentsAt (nd : Node) (L : Layout) (img : Image) (i : Nat) : Prop :=
  ∀ k (hk : k < nd.extents.length), extentStart img (L.extentAt i) k = nd.extents[k].1 ∧
    extentLength img (L.extentAt i) k = nd.extents[k].2

section Removal

variable {parent e d : Int}

theorem closeGap_ok {s : Name} (h : cstr (bytesAt img (lastSlot img parent e + 4) 252) = some s) :
    closeGap img parent e d = .ok (setDentryIno (setDentryName img d s) d
      (dentryIno (setDentryName img d s) (lastSlot img parent e))) := by
  rw [closeGap]
  simp only [h]

theorem closeGap_error (h : cstr (bytesAt img (lastSlot img parent e + 4) 252) = none) :
    closeGap img parent e d = .error .unterminated := by
  rw [closeGap]
  simp only [h]

/-- What the removal of an entry does. -/
theorem removeDentry_cases (hreads : RemovalReads img parent e name) :
    (findSlot img parent e name = none ∧ removeDentry img parent e name = .ok (img, false)) ∨
      ∃ d x, findSlot img parent e name = some (d, x) ∧
        (((x : Int) = numLastEntry img parent - 1 ∧ removeDentry img parent e name =
          .ok (setSize img parent (inodeSize img parent - 256), true)) ∨
        ∃ s img', cstr (bytesAt img (lastSlot img parent e + 4) 252) = some s ∧
          img' = setDentryIno (setDentryName img d s) d
            (dentryIno (setDentryName img d s) (lastSlot img parent e)) ∧
          removeDentry img parent e name =
            .ok (setSize img' parent (inodeSize img' parent - 256), true)) := by
  cases hfind : findSlot img parent e name with
  | none =>
      refine .inl ⟨rfl, ?_⟩
      rw [removeDentry, hfind, Option.elim_none]
  | some slot =>
      obtain ⟨d, x⟩ := slot
      refine .inr ⟨d, x, rfl, ?_⟩
      by_cases hx : (x : Int) = numLastEntry img parent - 1
      · refine .inl ⟨hx, ?_⟩
        rw [removeDentry, hfind, Option.elim_some]
        simp only [hx, if_true]
        rw [ok_bind]
      · obtain ⟨s, hs⟩ := (hreads _ hfind).resolve_left hx
        refine .inr ⟨s, _, hs, rfl, ?_⟩
        rw [removeDentry, hfind, Option.elim_some]
        simp only [hx, if_false]
        rw [closeGap_ok hs, ok_bind]

theorem removeDentry_reads {r : Image × Bool} (h : removeDentry img parent e name = .ok r) :
    RemovalReads img parent e name := by
  intro slot hfind
  by_cases hx : (slot.2 : Int) = numLastEntry img parent - 1
  · exact .inl hx
  · right
    cases hs : cstr (bytesAt img (lastSlot img parent e + 4) 252) with
    | some s => exact ⟨s, rfl⟩
    | none =>
        rw [removeDentry, hfind, Option.elim_some] at h
        simp only [hx, if_false] at h
        rw [closeGap_error hs] at h
        cases h

theorem removeDentry_ok (hreads : RemovalReads img parent e name) :
    ∃ img' found, removeDentry img parent e name = .ok (img', found) := by
  rcases removeDentry_cases hreads with ⟨_, heq⟩ | ⟨_, _, _, ⟨_, heq⟩ | ⟨_, _, _, _, heq⟩⟩
  · exact ⟨_, _, heq⟩
  · exact ⟨_, _, heq⟩
  · exact ⟨_, _, heq⟩

theorem removeDentry_fault (hreads : ¬ RemovalReads img parent e name) :
    ∃ f, removeDentry img parent e name = .error f := by
  cases hr : removeDentry img parent e name with
  | error f => exact ⟨f, rfl⟩
  | ok r => exact absurd (removeDentry_reads hr) hreads

/-- A removal stores to the size of the parent and to one of its slots, so it leaves the
head alone if no slot lies there. -/
theorem removeDentry_sameHead (hparent : 4096 * (L.inodeTable : Int) ≤ parent)
    (hslots : ∀ slot ∈ numberedSlots img parent e,
      4096 * (L.inodeTable : Int) ≤ slot.1 ∨ slot.1 + 256 ≤ 0)
    {found : Bool} (hr : removeDentry img parent e name = .ok (img', found)) :
    L.SameHead img' img := by
  rcases removeDentry_cases (removeDentry_reads hr) with ⟨_, heq⟩ | ⟨d, x, hfind, hcases⟩
  · rw [heq] at hr
    cases hr
    exact Layout.SameHead.refl _ _
  · have hmem : (d, x) ∈ numberedSlots img parent e := by
      rw [findSlot] at hfind
      exact List.mem_of_find?_eq_some hfind
    have hslot : 4096 * (L.inodeTable : Int) ≤ d ∨ d + 256 ≤ 0 := hslots (d, x) hmem
    rcases hcases with ⟨_, heq⟩ | ⟨s, img₁, hname, rfl, heq⟩
    · rw [heq] at hr
      cases hr
      exact (Layout.SameHead.refl L img).setSize hparent
    · rw [heq] at hr
      cases hr
      have hlen : s.length + 1 ≤ 252 := by
        obtain ⟨rest, hbytes⟩ := eq_append_of_cstr hname
        have hcount := congrArg List.length hbytes
        rw [length_bytesAt, List.length_append, length_terminated] at hcount
        omega
      have hcopied : L.SameHead (setDentryName img d s) img :=
        (Layout.SameHead.refl L img).store (by rw [length_terminated]; omega)
      exact (hcopied.set32 (by omega)).setSize hparent

variable (h : pn.ExtentsAt L img p) (hok : pn.Ok L) (hof : L.Of img)
  (hcount : extentCount img parent ≤ pn.extents.length)
include h hok hof hcount

/-- The slots that are looked at lie in the blocks of the directory. -/
theorem mem_numberedSlots {slot : Int × Nat}
    (hslot : slot ∈ numberedSlots img parent (L.extentAt p)) :
    ∃ b ∈ pn.blocks, ∃ x : Nat, x < 16 ∧ slot = (L.blockAt b + 256 * x, x) := by
  obtain ⟨j, hj, hin⟩ := List.mem_flatMap.mp hslot
  obtain ⟨k, hk, hblock⟩ := List.mem_flatMap.mp hj
  have hlt : k < pn.extents.length := by
    have := List.mem_range.mp hk
    omega
  have hmem : pn.extents[k] ∈ pn.extents := List.getElem_mem hlt
  obtain ⟨hstart, hlength⟩ := h k hlt
  have hsum := hok.extent_lt hmem
  rw [extentBlocks_eq hstart hlength (by omega)] at hblock
  obtain ⟨b, hb, rfl⟩ := List.mem_map.mp hblock
  obtain ⟨x, hx, rfl⟩ := List.mem_map.mp hin
  have hbs : b ∈ pn.blocks := List.mem_flatMap.mpr ⟨_, hmem, hb⟩
  exact ⟨b, hbs, x, List.mem_range.mp hx, by rw [hof.dataAddr (hok.blocks_lt b hbs)]⟩

/-- A removal leaves the head alone. -/
theorem removeDentry_head (hparent : 4096 * (L.inodeTable : Int) ≤ parent) {found : Bool}
    (hr : removeDentry img parent (L.extentAt p) name = .ok (img', found)) :
    L.SameHead img' img := by
  refine removeDentry_sameHead hparent (fun slot hslot => ?_) hr
  obtain ⟨b, _, x, _, rfl⟩ := mem_numberedSlots h hok hof hcount hslot
  have hge := L.blockAt_ge b
  exact .inl (by omega)

/-- The last entry is looked for in the last block of the directory. -/
theorem lastSlot_eq (hpos : 0 < extentCount img parent) :
    ∃ b ∈ pn.blocks, lastSlot img parent (L.extentAt p) =
      L.blockAt b + (numLastEntry img parent - 1) * 256 := by
  obtain ⟨k, hk⟩ := Int.eq_ofNat_of_zero_le (show 0 ≤ extentCount img parent - 1 by omega)
  have hlt : k < pn.extents.length := by omega
  have hmem : pn.extents[k] ∈ pn.extents := List.getElem_mem hlt
  obtain ⟨hstart, hlength⟩ := h k hlt
  have hsum := hok.extent_lt hmem
  have hone := hok.extents_pos _ hmem
  refine ⟨pn.extents[k].1 + (pn.extents[k].2 - 1),
    List.mem_flatMap.mpr ⟨_, hmem, List.mem_range'_1.mpr (by omega)⟩, ?_⟩
  have hblock : (L.data : Int) + pn.extents[k].1 + pn.extents[k].2 - 1 =
      (L.data + (pn.extents[k].1 + (pn.extents[k].2 - 1)) : Nat) := by omega
  simp only [lastSlot, hk, hstart, hlength, hof.startData]
  rw [hblock, blockOffUnsigned_of_bounds (by omega) (by omega), Layout.blockAt]
  omega

/-- What a removal reads: the record at `parent` from its size on, the extents of the
directory, and the data. -/
theorem removalReads_congr (hok' : L.Of img')
    (hrecord : AgreeOn img' img (parent + 8) (parent + 40))
    (hextents : AgreeOn img' img (L.extentAt p) (L.extentAt p + 4096))
    (hdata : ∀ x, 4096 * (L.data : Int) - 256 ≤ x → img' x = img x) :
    RemovalReads img' parent (L.extentAt p) name ↔ RemovalReads img parent (L.extentAt p) name := by
  have hlen := hok.extents_le
  have hsize : inodeSize img' parent = inodeSize img parent :=
    u64_congr (hrecord.mono (by omega) (by omega))
  have hext : extentCount img' parent = extentCount img parent :=
    i32_congr (hrecord.mono (by omega) (by omega))
  have hentry : ∀ k : Int, 0 ≤ k → k < 512 →
      extentStart img' (L.extentAt p) k = extentStart img (L.extentAt p) k ∧
        extentLength img' (L.extentAt p) k = extentLength img (L.extentAt p) k := by
    intro k hlo hhi
    exact ⟨u32_congr (hextents.mono (by omega) (by omega)),
      u32_congr (hextents.mono (by omega) (by omega))⟩
  have haddr : ∀ j, dataAddr img' j = dataAddr img j := by
    intro j
    rw [dataAddr, dataAddr, hok'.startData, hof.startData]
  have hblocks : ∀ k : Nat, k < (extentCount img parent).toNat →
      extentBlocks img' (L.extentAt p) k = extentBlocks img (L.extentAt p) k := by
    intro k hk
    obtain ⟨hstart, hlength⟩ := hentry k (by omega) (by omega)
    rw [extentBlocks, extentBlocks, hstart, hlength]
  have hslots : numberedSlots img' parent (L.extentAt p) =
      numberedSlots img parent (L.extentAt p) := by
    have hfile : fileBlocks img' (L.extentAt p) (extentCount img parent) =
        fileBlocks img (L.extentAt p) (extentCount img parent) :=
      List.flatMap_congr fun k hk => hblocks k (List.mem_range.mp hk)
    rw [numberedSlots, numberedSlots, hext, hfile]
    simp only [haddr]
  have hfind : findSlot img' parent (L.extentAt p) name =
      findSlot img parent (L.extentAt p) name := by
    rw [findSlot, findSlot, hslots]
    apply List.find?_congr
    intro slot hslot
    obtain ⟨b, _, x, _, rfl⟩ := mem_numberedSlots h hok hof hcount hslot
    have hbytes : bytesAt img' (L.blockAt b + 256 * x + 4) (name.length + 1) =
        bytesAt img (L.blockAt b + 256 * x + 4) (name.length + 1) := by
      apply bytesAt_congr
      intro y hlo _
      unfold Layout.blockAt at hlo
      exact hdata y (by omega)
    rw [decide_eq_decide, StringAt, StringAt, hbytes]
  have hnum : numLastEntry img' parent = numLastEntry img parent := by
    rw [numLastEntry, numLastEntry, hsize]
  unfold RemovalReads
  rw [hfind, hnum]
  refine forall_congr' fun slot => imp_congr_right fun hsome => or_congr_right ?_
  have hpos : 0 < extentCount img parent := by
    by_contra hle
    have hnil : numberedSlots img parent (L.extentAt p) = [] := by
      rw [numberedSlots, fileBlocks, Int.toNat_of_nonpos (by omega)]
      rfl
    rw [findSlot, hnil] at hsome
    cases hsome
  obtain ⟨hstart, hlength⟩ := hentry (extentCount img parent - 1) (by omega) (by omega)
  have hlast : lastSlot img' parent (L.extentAt p) = lastSlot img parent (L.extentAt p) := by
    simp only [lastSlot, hext, hstart, hlength, hnum, hof.startData, hok'.startData]
  obtain ⟨b, _, hb⟩ := lastSlot_eq h hok hof hcount hpos
  have hnonneg : 0 ≤ numLastEntry img parent := by
    rw [numLastEntry, int32_of_bounds (by omega) (by omega)]
    omega
  have hbytes : bytesAt img' (lastSlot img parent (L.extentAt p) + 4) 252 =
      bytesAt img (lastSlot img parent (L.extentAt p) + 4) 252 := by
    apply bytesAt_congr
    intro y hlo _
    rw [hb] at hlo
    unfold Layout.blockAt at hlo
    exact hdata y (by omega)
  rw [hlast, hbytes]

end Removal

/-! ## The removing calls -/

/-- Where `a1fs_unlink` looks for the record of inode `p`. -/
def Layout.strayAt (L : Layout) (p : Nat) : Int := 4096 * (L.inodeTable + p)

/-- The image after the inode bit and counter of a removal. -/
def Layout.freedInode (L : Layout) (img : Image) (i : Nat) : Image :=
  setFreeInodesCount (modify img L.inodeMapAt i false) (freeInodesCount img + 1)

theorem Layout.Of.freedInode (hof : L.Of img) : L.Of (L.freedInode img i) :=
  (hof.modify L.inodeMapAt_ge).setFreeInodesCount

namespace Layout

theorem freedInode_sameTail (hi : i < L.inodeBitCount) : L.SameTail (L.freedInode img i) img :=
  sameTail_setFreeInodesCount.trans (sameTail_modify_inodeMap hi)

theorem freedInode_dataBit (hi : i < L.inodeBitCount) (b : Nat) :
    bitSet (L.freedInode img i) L.dataMapAt b = bitSet img L.dataMapAt b := by
  rw [freedInode, bitSet_setFreeInodesCount L.dataMapAt_ge, dataBit_modify_inodeMap hi]

theorem freedInode_inodeBit (k : Nat) :
    bitSet (L.freedInode img i) L.inodeMapAt k =
      if k = i then false else bitSet img L.inodeMapAt k := by
  rw [freedInode, bitSet_setFreeInodesCount L.inodeMapAt_ge, bitSet_modify]

/-- What the two stores behind the clearing of the inode bit come to. -/
theorem freedInode_eq : setFreeInodesCount (modify img L.inodeMapAt i false)
    (freeInodesCount (modify img L.inodeMapAt i false) + 1) = L.freedInode img i := by
  rw [freeInodesCount_modify L.inodeMapAt_ge, freedInode]

end Layout

/-- The image in which `a1fs_unlink` looks for the entry. -/
def Layout.unlinked (L : Layout) (img : Image) (nd : Node) (i p : Nat) : Image :=
  let img := L.released countBlock nd.blocks (L.freedInode img i)
  setLinks img (L.strayAt p) (inodeLinks img (L.strayAt p) - 1)

namespace WellFormed

variable {t : Target} {stale : Nat → UInt8}

section Freed

variable (wf : WellFormed L img nodes) (hnd : nodes i = some nd) {after : Image → Image}
  (hafter : HeadUpdate L after)
include wf hnd hafter

theorem released_freedInode_sameTail :
    L.SameTail (L.released after nd.blocks (L.freedInode img i)) img :=
  (released_sameTail hafter fun _ hb => (wf.blockBit hnd hb).1).trans
    (Layout.freedInode_sameTail (wf.inodeBit hnd).1)

/-- The nodes are still there when an inode and its blocks have been freed. -/
theorem released_hold : Holds L (L.released after nd.blocks (L.freedInode img i)) nodes :=
  wf.hold.congr wf.closed (released_of hafter wf.of.freedInode)
    (released_freedInode_sameTail wf hnd hafter)

/-- The bits and the inode counter after an inode and its blocks have been freed. -/
theorem released_tally :
    let img' := L.released after nd.blocks (L.freedInode img i)
    (L.tally img').usedBlocks + nd.blocks.length = (L.tally img).usedBlocks ∧
      (L.tally img').usedInodes + 1 = (L.tally img).usedInodes ∧
      (L.tally img').freeInodes = uint32 (freeInodesCount img + 1) := by
  obtain ⟨hi, hbit⟩ := wf.inodeBit hnd
  refine ⟨?_, ?_, ?_⟩
  · have hused : (L.tally (L.freedInode img i)).usedBlocks = (L.tally img).usedBlocks := by
      simp only [Layout.tally]
      exact setBits_congr fun b _ => Layout.freedInode_dataBit hi b
    have hset : ∀ b ∈ nd.blocks,
        b < 65536 ∧ bitSet (L.freedInode img i) L.dataMapAt b = true := by
      intro b hb
      rw [Layout.freedInode_dataBit hi]
      exact wf.blockBit hnd hb
    have hfreed : (L.tally (L.released after nd.blocks (L.freedInode img i))).usedBlocks +
        nd.blocks.length = (L.tally (L.freedInode img i)).usedBlocks :=
      released_usedBlocks hafter (wf.nodup i nd hnd) hset
    rw [hused] at hfreed
    exact hfreed
  · have hused : setBits (L.released after nd.blocks (L.freedInode img i)) L.inodeMapAt
        L.inodeBitCount = setBits (modify img L.inodeMapAt i false) L.inodeMapAt
          L.inodeBitCount := by
      apply setBits_congr
      intro k hk
      rw [released_inodeBit hafter hk, Layout.freedInode_inodeBit, bitSet_modify]
    simp only [Layout.tally]
    rw [hused]
    exact setBits_modify_false hi hbit
  · simp only [Layout.tally]
    rw [released_freeInodes hafter, Layout.freedInode, freeInodesCount_setFreeInodesCount]

end Freed

/-- The directory in which a found path ends. -/
theorem parent_of_resolve (wf : WellFormed L img nodes)
    (hi : nodes.resolve (t.dirs ++ [t.name]) = (i : Int)) :
    ∃ (p : Nat) (pn : Node), nodes.resolve t.dirs = p ∧ nodes p = some pn ∧ sIsDir pn.mode ∧
      nodes.lookup p t.name = some i := by
  obtain ⟨p, hp, _, hl⟩ := Nodes.resolve_concat hi
  obtain ⟨pn, hpn⟩ := Option.isSome_iff_exists.mp (wf.closed.resolve_live hp)
  refine ⟨p, pn, hp, hpn, ?_, hl⟩
  have hmem := Nodes.mem_of_lookup hl
  rw [Nodes.entriesOf_eq hpn] at hmem
  by_contra hdir
  rw [(wf.closed.ok p pn hpn).not_dir hdir] at hmem
  cases hmem

section Calls

variable (wf : WellFormed L img nodes) (hi : nodes.resolve (t.dirs ++ [t.name]) = (i : Int))
  (hnd : nodes i = some nd)
include wf hi

theorem pathInode_target : pathInode img t.path = .ok (i : Int) := by
  have hpath := wf.hold.pathInode wf.closed t.component t.length_lt
  rw [hi] at hpath
  exact hpath

include hnd

theorem rmdir_refused (hlinks : nd.links ≠ 2) :
    a1fsRmdir img t.path stale = .ok (-enotempty, img) := by
  have hlt := wf.closed.inode_lt i nd hnd
  rw [a1fsRmdir, if_neg t.path_ne_root, pathInode_target wf hi, ok_bind]
  simp only [wf.of.inodeAddr hlt.le, (wf.hold.nodeAt i nd hnd).links]
  rw [if_pos hlinks]

variable (hlen : t.path.length < 100) (hbuf : t.dirs ≠ [] → BufferReads stale t.dirs)
  (hp : nodes.resolve t.dirs = (p : Int)) (hpn : nodes p = some pn)
include hlen hbuf hp

omit hi in
/-- The parent's inode is found again after the bitmaps have changed. -/
theorem oldEntryParent_released {after : Image → Image} (hafter : HeadUpdate L after) :
    oldEntryParent (L.released after nd.blocks (L.freedInode img i)) stale t.path =
      .ok ((p : Int), t.name) := by
  have hold := released_hold wf hnd hafter
  rw [oldEntryParent_eq hlen hbuf, Target.parent,
    hold.pathInode wf.closed t.dir_component t.length_parent_lt, hp]
  rfl

include hpn

/-- What `a1fs_rmdir` does to a directory that it does not refuse. -/
theorem rmdir_run (hlinks : nd.links = 2) :
    a1fsRmdir img t.path stale = (do
      let (img, found) ← removeDentry (L.released id nd.blocks (L.freedInode img i))
        (L.recordAt p) (L.extentAt p) t.name
      .ok (0, if found then setLinks img (L.recordAt p) (inodeLinks img (L.recordAt p) - 1)
        else img)) := by
  have hlt := wf.closed.inode_lt i nd hnd
  have hok := wf.closed.ok i nd hnd
  have htail : L.SameTail (L.freedInode img i) img :=
    Layout.freedInode_sameTail (wf.inodeBit hnd).1
  have hof : L.Of (L.freedInode img i) := wf.of.freedInode
  have hrelease : releaseExtents (L.recordAt i) (L.extentAt i) L.dataMapAt id intRange 0
      (L.freedInode img i) = L.released id nd.blocks (L.freedInode img i) := by
    have hext := hok.extents_le
    have hat := (wf.hold.nodeAt i nd hnd).of_sameTail hok htail
    exact releaseExtents_eq headUpdate_id (by rw [hat.count]; exact hat.fileBlocks hok)
      (fun b hb => (wf.blockBit hnd hb).1) (by rw [hat.count]; unfold intRange; omega)
  have hold := released_hold wf hnd headUpdate_id
  have hplt := wf.closed.inode_lt p pn hpn
  rw [a1fsRmdir, if_neg t.path_ne_root, pathInode_target wf hi, ok_bind]
  simp only [wf.of.inodeAddr hlt.le, (wf.hold.nodeAt i nd hnd).links]
  rw [if_neg (by simp [hlinks])]
  simp only [wf.of.dataMapAddr, wf.of.inodeMapAddr, Layout.freedInode_eq, hof.extentAddr hlt.le, hrelease]
  rw [oldEntryParent_released wf hnd hlen hbuf hp headUpdate_id, ok_bind]
  simp only [hold.of.inodeAddr hplt.le, hold.of.extentAddr hplt.le]

/-- What `a1fs_unlink` does. -/
theorem unlink_run :
    a1fsUnlink img t.path stale = (do
      let (img, _) ← removeDentry (L.unlinked img nd i p) (L.strayAt p) (L.extentAt p) t.name
      .ok (0, img)) := by
  have hlt := wf.closed.inode_lt i nd hnd
  have hok := wf.closed.ok i nd hnd
  have htail : L.SameTail (L.freedInode img i) img :=
    Layout.freedInode_sameTail (wf.inodeBit hnd).1
  have hof : L.Of (L.freedInode img i) := wf.of.freedInode
  have hrelease : releaseExtents (L.recordAt i) (L.extentAt i) L.dataMapAt
      (fun img => setFreeBlocksCount img (freeBlocksCount img + 1)) intRange 0
      (L.freedInode img i) = L.released countBlock nd.blocks (L.freedInode img i) := by
    have hext := hok.extents_le
    change releaseExtents (L.recordAt i) (L.extentAt i) L.dataMapAt countBlock intRange 0
      (L.freedInode img i) = L.released countBlock nd.blocks (L.freedInode img i)
    have hat := (wf.hold.nodeAt i nd hnd).of_sameTail hok htail
    exact releaseExtents_eq headUpdate_count (by rw [hat.count]; exact hat.fileBlocks hok)
      (fun b hb => (wf.blockBit hnd hb).1) (by rw [hat.count]; unfold intRange; omega)
  have hold := released_hold wf hnd headUpdate_count
  have hplt := wf.closed.inode_lt p pn hpn
  have hstray : blockOff (startInode (L.released countBlock nd.blocks (L.freedInode img i)) + p) =
      L.strayAt p := by
    have htable := L.extents_lt
    have hroom := L.extentBlocks
    have hdata := L.data_lt
    rw [hold.of.startInode, blockOff_of_bounds (by omega) (by omega), Layout.strayAt]
  rw [a1fsUnlink, pathInode_target wf hi, ok_bind]
  simp only [wf.of.inodeAddr hlt.le, wf.of.inodeMapAddr, Layout.freedInode_eq, hof.extentAddr hlt.le,
    hof.dataMapAddr, hrelease]
  rw [oldEntryParent_released wf hnd hlen hbuf hp headUpdate_count, ok_bind]
  simp only [hstray, hold.of.extentAddr hplt.le, Layout.unlinked]

end Calls

end WellFormed

end UoftOs.FileSystem
