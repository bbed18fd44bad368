import UoftOs.FileSystem.Removing

/-!
# Writing and truncating

What `a1fs_write` and `a1fs_truncate` store, in an image with a layout. Neither
changes the head of the image by its stores to extents and data; `a1fs_truncate`
takes blocks from the inode bitmap.
-/

namespace UoftOs.FileSystem

open Lib.ByteMemory Lib.Frames

variable {L : Layout} {img img' : Image} {nodes : Nodes} {nd : Node} {i k : Nat} {p w : Int}
  {buf : List UInt8} {offset size : Nat}

/-! ## Writing -/

/-- The gap that `memset` fills has a length. -/
def GapFits (img : Image) (inode : Int) (offset : Nat) : Prop :=
  int32 (inodeSize img inode) < offset → 0 ≤ int32 (offset - int32 (inodeSize img inode))

/-- What `writeInto` stores. -/
theorem writeInto_cases (hgap : GapFits img p offset) :
    (int32 (inodeSize img p) < offset ∧ writeInto img p w buf offset =
      .ok (setSize (store (fill img (dataAddr img w + int32 (inodeSize img p)) 0
        (int32 (offset - int32 (inodeSize img p))).toNat)
          (dataAddr (fill img (dataAddr img w + int32 (inodeSize img p)) 0
            (int32 (offset - int32 (inodeSize img p))).toNat) w + offset) buf) p
          (int32 (inodeSize img p) + buf.length + offset))) ∨
    ((offset : Int) ≤ int32 (inodeSize img p) ∧ writeInto img p w buf offset =
      .ok (if int32 (inodeSize img p) < int32 (offset + buf.length) then
        setSize (store img (dataAddr img w + offset) buf) p (offset + buf.length)
        else store img (dataAddr img w + offset) buf)) := by
  rcases Int.lt_or_le (int32 (inodeSize img p)) offset with hlt | hge
  · refine .inl ⟨hlt, ?_⟩
    have hnonneg := hgap hlt
    simp only [writeInto]
    rw [if_pos hlt, if_neg (by omega)]
  · refine .inr ⟨hge, ?_⟩
    simp only [writeInto]
    rw [if_neg (by omega)]

theorem writeInto_gapFits (h : writeInto img p w buf offset = .ok img') : GapFits img p offset := by
  intro hlt
  by_contra hneg
  simp only [writeInto] at h
  rw [if_pos hlt, if_pos (by omega)] at h
  cases h

/-- A write behind the head leaves the head alone. -/
theorem writeInto_head (hof : L.Of img) (hp : 4096 * (L.inodeTable : Int) ≤ p)
    (hsize : 0 ≤ int32 (inodeSize img p)) (hw : ∃ b : Nat, w = b ∧ L.data + b < 524288)
    (h : writeInto img p w buf offset = .ok img') : L.SameHead img' img := by
  obtain ⟨b, rfl, hb⟩ := hw
  have hge := L.blockAt_ge b
  have hgap := writeInto_gapFits h
  rcases writeInto_cases hgap with ⟨_, heq⟩ | ⟨_, heq⟩
  · rw [heq] at h
    cases h
    have hfill : L.SameHead (fill img (dataAddr img b + int32 (inodeSize img p)) 0
        (int32 (offset - int32 (inodeSize img p))).toNat) img := by
      rw [hof.dataAddr hb]
      exact (Layout.SameHead.refl L img).fill (.inl (by omega))
    rw [(hfill.of hof).dataAddr hb]
    exact (hfill.store (.inl (by omega))).setSize hp
  · rw [heq] at h
    rw [← Except.ok.inj h]
    have hstore : L.SameHead (store img (dataAddr img b + offset) buf) img := by
      rw [hof.dataAddr hb]
      exact (Layout.SameHead.refl L img).store (.inl (by omega))
    by_cases hgrow : int32 (inodeSize img p) < int32 (offset + buf.length)
    · rw [if_pos hgrow]
      exact hstore.setSize hp
    · rw [if_neg hgrow]
      exact hstore

/-- The block behind the last extent. -/
theorem behindLastExtent_eq (h : nd.At L img i) (hok : nd.Ok L) (hne : nd.extents ≠ []) :
    behindLastExtent img (L.recordAt i) (L.extentAt i) = nd.lastBlock + 1 := by
  obtain ⟨s, c, hs, hc, hsum, hmem⟩ := h.lastExtent hok hne
  have hlt := hok.blocks_lt _ hmem
  rw [behindLastExtent]
  simp only [h.count, hs, hc]
  rw [int32_of_bounds (by omega) (by omega)]
  omega

/-! ## Extents -/

/-- The extent that `update_extent` makes longer. -/
def adjacentExtent (img : Image) (e count index : Int) : Option Nat :=
  (List.range count.toNat).find? fun (k : Nat) =>
    int32 (int32 (extentStart img e k) + int32 (extentLength img e k)) = index

theorem adjacentExtent_lt {e count index : Int} (h : adjacentExtent img e count index = some k) :
    (k : Int) < count := by
  rw [adjacentExtent] at h
  have hmem := List.mem_range.mp (List.mem_of_find?_eq_some h)
  omega

/-- `update_extent` makes an extent longer, or stores a new one behind the others and
sets the count to 1. -/
theorem updateExtent_cases (hof : L.Of img) (hi : i < L.inodes)
    (hnumber : inoNumber img (L.recordAt i) = i)
    (hcount : 0 ≤ extentCount img (L.recordAt i)) (index : Int) :
    (∃ k, adjacentExtent img (L.extentAt i) (extentCount img (L.recordAt i)) index = some k ∧
      updateExtent img i index = setExtentLength img (L.extentAt i) k
        (extentLength img (L.extentAt i) k + 1)) ∨
    (adjacentExtent img (L.extentAt i) (extentCount img (L.recordAt i)) index = none ∧
      updateExtent img i index = setExtentCount (setExtentLength (setExtentStart img (L.extentAt i)
        (extentCount img (L.recordAt i)) index) (L.extentAt i) (extentCount img (L.recordAt i)) 1)
          (L.recordAt i) 1) := by
  have hrecords := L.records
  have hrecord : L.recordAt i = 4096 * L.inodeTable + 64 * i := rfl
  have hextent : L.extentAt i = 4096 * (L.extents + i) := rfl
  have hsame : extentCount (setExtentStart img (L.extentAt i) (extentCount img (L.recordAt i)) index)
      (L.recordAt i) = extentCount img (L.recordAt i) :=
    i32_congr (store_agreeOn (by omega))
  cases hadjacent : adjacentExtent img (L.extentAt i) (extentCount img (L.recordAt i)) index with
  | none =>
      refine .inr ⟨rfl, ?_⟩
      rw [adjacentExtent] at hadjacent
      simp only [updateExtent, hof.inodeAddr hi.le, hnumber, hof.extentAddr hi.le, hadjacent,
        Option.elim_none, hsame]
  | some k =>
      refine .inl ⟨k, rfl, ?_⟩
      rw [adjacentExtent] at hadjacent
      simp only [updateExtent, hof.inodeAddr hi.le, hnumber, hof.extentAddr hi.le, hadjacent,
        Option.elim_some]

/-- `update_extent` stores in the record and the extents of the inode. -/
theorem updateExtent_effect (hof : L.Of img) (hi : i < L.inodes)
    (hnumber : inoNumber img (L.recordAt i) = i)
    (hcount : 0 ≤ extentCount img (L.recordAt i) ∧ extentCount img (L.recordAt i) ≤ 512)
    (index : Int) :
    L.SameHead (updateExtent img i index) img ∧
      inoNumber (updateExtent img i index) (L.recordAt i) = i ∧
      0 ≤ extentCount (updateExtent img i index) (L.recordAt i) ∧
        extentCount (updateExtent img i index) (L.recordAt i) ≤ 512 := by
  have hrecords := L.records
  have hhead := L.extents_lt
  have hrecord : L.recordAt i = 4096 * L.inodeTable + 64 * i := rfl
  have hextent : L.extentAt i = 4096 * (L.extents + i) := rfl
  obtain ⟨hlo, hhi⟩ := hcount
  rcases updateExtent_cases hof hi hnumber hlo index with ⟨k, hk, heq⟩ | ⟨_, heq⟩
  · have hlt := adjacentExtent_lt hk
    have hnumber' : inoNumber (updateExtent img i index) (L.recordAt i) =
        inoNumber img (L.recordAt i) := by
      rw [heq]
      exact i32_congr (store_agreeOn (by omega))
    have hcount' : extentCount (updateExtent img i index) (L.recordAt i) =
        extentCount img (L.recordAt i) := by
      rw [heq]
      exact i32_congr (store_agreeOn (by omega))
    rw [hnumber', hcount', heq]
    exact ⟨(Layout.SameHead.refl L img).set32 (.inl (by omega)), hnumber, hlo, hhi⟩
  · obtain ⟨c, hc⟩ := Int.eq_ofNat_of_zero_le hlo
    rw [hc] at heq hhi
    have hnumber' : inoNumber (updateExtent img i index) (L.recordAt i) =
        inoNumber img (L.recordAt i) := by
      rw [heq]
      apply i32_congr
      refine AgreeOn.trans (store_agreeOn (by rw [length_leBytes]; omega)) (AgreeOn.trans
        (store_agreeOn (by omega)) (store_agreeOn (by omega)))
    have hcount' : extentCount (updateExtent img i index) (L.recordAt i) = 1 := by
      rw [heq, extentCount, setExtentCount, i32, u32_set32_self, int32_uint32]
      rfl
    rw [hnumber', hcount', heq]
    refine ⟨?_, hnumber, by omega, by omega⟩
    exact (((Layout.SameHead.refl L img).set32 (.inl (by omega))).set32
      (.inl (by omega))).setExtentCount (by omega)

/-- The first extent of a file holds the one block. -/
theorem updateExtent_first {index : Int} (hof : L.Of img) (hi : i < L.inodes)
    (hnumber : inoNumber img (L.recordAt i) = i) (hcount : extentCount img (L.recordAt i) = 0)
    (hlo : -1 ≤ index) (hhi : index < 65536) :
    extentCount (updateExtent img i index) (L.recordAt i) = 1 ∧
      extentBlocks (updateExtent img i index) (L.extentAt i) 0 = [index] := by
  have hrecords := L.records
  have hrecord : L.recordAt i = 4096 * L.inodeTable + 64 * i := rfl
  have hextent : L.extentAt i = 4096 * (L.extents + i) := rfl
  rcases updateExtent_cases hof hi hnumber hcount.ge index with ⟨k, hk, _⟩ | ⟨_, heq⟩
  · have hlt := adjacentExtent_lt hk
    omega
  · rw [hcount] at heq
    have hstart : extentStart (updateExtent img i index) (L.extentAt i) 0 = uint32 index := by
      rw [heq]
      simp (disch := omega) only [extentStart, setExtentCount, setExtentLength, setExtentStart,
        u32_set32_of_disjoint, u32_set32_self]
    have hlength : extentLength (updateExtent img i index) (L.extentAt i) 0 = 1 := by
      rw [heq]
      simp (disch := omega) only [extentLength, setExtentCount, setExtentLength,
        u32_set32_of_disjoint, u32_set32_self]
      rfl
    constructor
    · rw [heq, extentCount, setExtentCount, i32, u32_set32_self, int32_uint32]
      rfl
    · have hone : int32 ((1 : Nat) : Int) = 1 := by decide
      have hself : int32 index = index := int32_of_bounds (by omega) (by omega)
      have hsum : int32 (1 + index) = 1 + index := int32_of_bounds (by omega) (by omega)
      rw [extentBlocks, hstart, hlength, int32_uint32, hone, hself, hsum,
        show (1 + index - index).toNat = 1 by omega]
      simp

/-- The size stays. -/
theorem updateExtent_size {index : Int} (hof : L.Of img) (hi : i < L.inodes)
    (hnumber : inoNumber img (L.recordAt i) = i) (hcount : 0 ≤ extentCount img (L.recordAt i)) :
    inodeSize (updateExtent img i index) (L.recordAt i) = inodeSize img (L.recordAt i) := by
  have hrecords := L.records
  have hrecord : L.recordAt i = 4096 * L.inodeTable + 64 * i := rfl
  have hextent : L.extentAt i = 4096 * (L.extents + i) := rfl
  rcases updateExtent_cases hof hi hnumber hcount index with ⟨k, _, heq⟩ | ⟨_, heq⟩
  · rw [heq]
    exact u64_congr (store_agreeOn (by omega))
  · rw [heq]
    apply u64_congr
    exact AgreeOn.trans (store_agreeOn (by rw [length_leBytes]; omega)) (AgreeOn.trans
      (store_agreeOn (by omega)) (store_agreeOn (by omega)))

/-! ## Addresses of data blocks -/

/-- A wrapped address lies before the image. -/
theorem Layout.Of.dataAddr_ge (h : L.Of img) {x : Int} (hlo : -1 ≤ x) (hhi : x < 65536) :
    4096 * (L.extents : Int) ≤ FileSystem.dataAddr img x ∨
      FileSystem.dataAddr img x ≤ -8192 := by
  have hroom := L.extentBlocks
  have hpos := L.inodes_pos
  have hdata := L.data_lt
  rw [FileSystem.dataAddr, h.startData, blockOff]
  have hx : int32 ((L.data : Int) + x) = L.data + x := int32_of_bounds (by omega) (by omega)
  rw [hx]
  rcases Int.lt_or_le ((L.data : Int) + x) 524288 with hlt | hge
  · left
    rw [int32_of_bounds (by omega) (by omega)]
    omega
  · right
    have hwrap : int32 (((L.data : Int) + x) * 4096) = ((L.data : Int) + x) * 4096 - 4294967296 := by
      unfold int32
      rw [Int.bmod_def]
      omega
    rw [hwrap]
    omega

/-! ## Growing -/

/-- What `a1fs_truncate` may do to the head on its way: it sets inode bits, none if the
first byte of their bitmap is full. -/
structure Drift (L : Layout) (i : Nat) (img₀ img : Image) : Prop where
  of : L.Of img
  number : inoNumber img (L.recordAt i) = i
  count : 0 ≤ extentCount img (L.recordAt i) ∧ extentCount img (L.recordAt i) ≤ 512
  freeBlocks : freeBlocksCount img = freeBlocksCount img₀
  freeInodes : freeInodesCount img = freeInodesCount img₀
  dataBit : ∀ b < 65536, bitSet img L.dataMapAt b = bitSet img₀ L.dataMapAt b
  inodeBit : ∀ k < L.inodeBitCount, bitSet img₀ L.inodeMapAt k = true →
    bitSet img L.inodeMapAt k = true
  full : (∀ k < 8, bitSet img₀ L.inodeMapAt k = true) →
    ∀ k < L.inodeBitCount, bitSet img L.inodeMapAt k = bitSet img₀ L.inodeMapAt k

namespace Drift

variable {img₀ : Image}

/-- A store behind the head that keeps the inode's number and count in range. -/
theorem of_sameHead (h : Drift L i img₀ img) (same : L.SameHead img' img)
    (hnumber : inoNumber img' (L.recordAt i) = i)
    (hcount : 0 ≤ extentCount img' (L.recordAt i) ∧ extentCount img' (L.recordAt i) ≤ 512) :
    Drift L i img₀ img' where
  of := same.of h.of
  number := hnumber
  count := hcount
  freeBlocks := by rw [same.freeBlocksCount, h.freeBlocks]
  freeInodes := by rw [same.freeInodesCount, h.freeInodes]
  dataBit := fun b hb => by rw [same.dataBit hb, h.dataBit b hb]
  inodeBit := fun k hk hset => by rw [same.inodeBit hk, h.inodeBit k hk hset]
  full := fun hfull k hk => by rw [same.inodeBit hk, h.full hfull k hk]

theorem updateExtent {index : Int} (h : Drift L i img₀ img) (hi : i < L.inodes) :
    Drift L i img₀ (updateExtent img i index) := by
  obtain ⟨hhead, hnumber, hcount⟩ := updateExtent_effect h.of hi h.number h.count index
  exact h.of_sameHead hhead hnumber hcount

/-- Zeros in the data, or before the image. -/
theorem fill {a : Int} {n : Nat} (h : Drift L i img₀ img) (hi : i < L.inodes)
    (ha : 4096 * (L.extents : Int) ≤ a ∨ a + n ≤ 0) : Drift L i img₀ (fill img a 0 n) := by
  have hrecords := L.records
  have htable := L.extents_lt
  have hsame : AgreeOn (Lib.ByteMemory.fill img a 0 n) img (L.recordAt i) (L.recordAt i + 64) := by
    intro x hlo hhi
    unfold Layout.recordAt at hlo hhi
    exact fill_apply_of_outside (by omega)
  have hnumber : inoNumber (Lib.ByteMemory.fill img a 0 n) (L.recordAt i) =
      inoNumber img (L.recordAt i) := i32_congr (hsame.mono (by omega) (by omega))
  have hcount : extentCount (Lib.ByteMemory.fill img a 0 n) (L.recordAt i) =
      extentCount img (L.recordAt i) := i32_congr (hsame.mono (by omega) (by omega))
  refine h.of_sameHead ((Layout.SameHead.refl L img).fill (by omega)) ?_ ?_
  · rw [hnumber, h.number]
  · rw [hcount]
    exact h.count

/-- An inode bit is taken. -/
theorem takeBit (h : Drift L i img₀ img) :
    Drift L i img₀ (modify img L.inodeMapAt (findNextBit img L.inodeMapAt) true) := by
  have hbits := L.bits_ge
  rw [modify_findNextBit]
  obtain ⟨⟨img₁, k⟩, htake⟩ : ∃ r, takeFreeBit img L.inodeMapAt = r := ⟨_, rfl⟩
  rw [htake]
  rcases Nat.lt_or_ge k 8 with hlt | hge
  · obtain ⟨hleast, rfl⟩ := takeFreeBit_least htake hlt
    have htail : L.SameTail (modify img L.inodeMapAt k true) img :=
      Layout.sameTail_modify_inodeMap (by omega)
    have hpos := L.recordAt_ge i
    have hnumber : inoNumber (modify img L.inodeMapAt k true) (L.recordAt i) =
        inoNumber img (L.recordAt i) := i32_congr fun x hlo _ => htail x (by omega)
    have hcount : extentCount (modify img L.inodeMapAt k true) (L.recordAt i) =
        extentCount img (L.recordAt i) := i32_congr fun x hlo _ => htail x (by omega)
    refine ⟨h.of.modify L.inodeMapAt_ge, ?_, ?_, ?_, ?_, ?_, ?_, ?_⟩
    · rw [hnumber, h.number]
    · rw [hcount]
      exact h.count
    · rw [freeBlocksCount_modify L.inodeMapAt_ge, h.freeBlocks]
    · rw [freeInodesCount_modify L.inodeMapAt_ge, h.freeInodes]
    · intro b hb
      rw [Layout.dataBit_modify_inodeMap (by omega), h.dataBit b hb]
    · intro j hj hset
      rw [bitSet_modify, h.inodeBit j hj hset, ite_self]
    · intro hfull
      have hset := h.inodeBit k (by omega) (hfull k hlt)
      rw [hleast.2.1] at hset
      cases hset
  · rw [takeFreeBit_eq_self htake hge]
    exact h

/-- A round of the growth loop. -/
theorem growBlock (h : Drift L i img₀ img) (hi : i < L.inodes) :
    Drift L i img₀ (growBlock i L.inodeMapAt img) := by
  have hbounds := findNextBit_bounds img L.inodeMapAt
  have hgrown : Drift L i img₀ (FileSystem.updateExtent
      (modify img L.inodeMapAt (findNextBit img L.inodeMapAt) true) i
      (findNextBit img L.inodeMapAt)) := h.takeBit.updateExtent hi
  have haddr := hgrown.of.dataAddr_ge hbounds.1 (by omega)
  exact hgrown.fill hi (by omega)

theorem growFile (h : Drift L i img₀ img) (hi : i < L.inodes) (n : Nat) :
    Drift L i img₀ (growFile i L.inodeMapAt n img) := by
  induction n with
  | zero => exact h
  | succ n ih =>
      rw [FileSystem.growFile, List.range_succ, List.foldl_append, List.foldl_cons, List.foldl_nil]
      exact ih.growBlock hi

/-- Every image drifts to itself. -/
theorem self (h : Drift L i img₀ img) : Drift L i img img :=
  ⟨h.of, h.number, h.count, rfl, rfl, fun _ _ => rfl, fun _ _ hset => hset, fun _ _ _ => rfl⟩

/-- A round takes the least clear inode bit when it is in the first byte. -/
theorem growBlock_sets (h : Drift L i img₀ img) (hi : i < L.inodes) (hk : k < 8)
    (hleast : LeastClear img L.inodeMapAt k) :
    bitSet (FileSystem.growBlock i L.inodeMapAt img) L.inodeMapAt k = true := by
  have hbits := L.bits_ge
  have hbounds := findNextBit_bounds img L.inodeMapAt
  have hfind := hleast.findNextBit
  rw [Nat.mod_eq_of_lt hk] at hfind
  have htake : bitSet (modify img L.inodeMapAt (findNextBit img L.inodeMapAt) true)
      L.inodeMapAt k = true := by
    rw [hfind, bitSet_modify, if_pos rfl]
  have hgrown : Drift L i (modify img L.inodeMapAt (findNextBit img L.inodeMapAt) true)
      (FileSystem.updateExtent (modify img L.inodeMapAt (findNextBit img L.inodeMapAt) true) i
        (findNextBit img L.inodeMapAt)) := h.takeBit.self.updateExtent hi
  have haddr := hgrown.of.dataAddr_ge hbounds.1 (by omega)
  exact (hgrown.fill hi (by omega)).inodeBit k (by omega) htake

theorem growFile_sets (h : Drift L i img₀ img) (hi : i < L.inodes) (hk : k < 8)
    (hleast : LeastClear img L.inodeMapAt k) {n : Nat} (hn : 0 < n) :
    bitSet (FileSystem.growFile i L.inodeMapAt n img) L.inodeMapAt k = true := by
  have hbits := L.bits_ge
  induction n with
  | zero => omega
  | succ n ih =>
      have hstep : FileSystem.growFile i L.inodeMapAt (n + 1) img =
          FileSystem.growBlock i L.inodeMapAt (FileSystem.growFile i L.inodeMapAt n img) := by
        rw [FileSystem.growFile, List.range_succ, List.foldl_append, List.foldl_cons,
          List.foldl_nil, FileSystem.growFile]
      rw [hstep]
      rcases Nat.eq_zero_or_pos n with rfl | hpos
      · exact h.growBlock_sets hi hk hleast
      · exact ((h.growFile hi n).self.growBlock hi).inodeBit k (by omega) (ih hpos)

end Drift

/-! ## Shrinking -/

/-- What the shrinking loop may do to the head: it clears data bits. -/
structure Shrunk (L : Layout) (img₀ img : Image) : Prop where
  of : L.Of img
  freeBlocks : freeBlocksCount img = freeBlocksCount img₀
  freeInodes : freeInodesCount img = freeInodesCount img₀
  dataBit : ∀ b < 65536, bitSet img L.dataMapAt b = true → bitSet img₀ L.dataMapAt b = true
  inodeBit : ∀ k < L.inodeBitCount, bitSet img L.inodeMapAt k = bitSet img₀ L.inodeMapAt k

namespace Shrunk

variable {img₀ : Image}

theorem refl (hof : L.Of img) : Shrunk L img img :=
  ⟨hof, rfl, rfl, fun _ _ hset => hset, fun _ _ => rfl⟩

theorem of_sameHead (h : Shrunk L img₀ img) (same : L.SameHead img' img) : Shrunk L img₀ img' where
  of := same.of h.of
  freeBlocks := by rw [same.freeBlocksCount, h.freeBlocks]
  freeInodes := by rw [same.freeInodesCount, h.freeInodes]
  dataBit := fun b hb hset => h.dataBit b hb (by rw [← same.dataBit hb, hset])
  inodeBit := fun k hk => by rw [same.inodeBit hk, h.inodeBit k hk]

theorem clearBit (h : Shrunk L img₀ img) {j : Int} (hlo : -1 ≤ j) (hhi : j < 65536) :
    Shrunk L img₀ (modify img L.dataMapAt j false) := by
  rcases Int.lt_or_le j 0 with hneg | hnonneg
  · rw [show j = -1 by omega, modify_neg_one]
    exact h
  · obtain ⟨b, rfl⟩ := Int.eq_ofNat_of_zero_le hnonneg
    refine ⟨h.of.modify L.dataMapAt_ge, ?_, ?_, ?_, ?_⟩
    · rw [freeBlocksCount_modify L.dataMapAt_ge, h.freeBlocks]
    · rw [freeInodesCount_modify L.dataMapAt_ge, h.freeInodes]
    · intro c hc hset
      rw [bitSet_modify] at hset
      split at hset
      · cases hset
      · exact h.dataBit c hc hset
    · intro k hk
      rw [Layout.inodeBit_modify_dataMap hk, h.inodeBit k hk]

end Shrunk

/-- The state of the shrinking loop before extent `k`: the extents from there on are
those of `img₀`, and there are not more of them. -/
structure ShrinkInv (L : Layout) (i k : Nat) (img₀ img : Image) : Prop where
  shrunk : Shrunk L img₀ img
  count : extentCount img (L.recordAt i) ≤ extentCount img₀ (L.recordAt i)
  extents : AgreeOn img img₀ (L.extentAt i + 8 * k) (L.extentAt i + 4096)

theorem shrinkExtents_stop {p e total dataMap : Int} {fuel : Nat} {s : Shrink}
    (hk : ¬ (k : Int) < extentCount s.img p) :
    shrinkExtents p e total dataMap (fuel + 1) k s = s := by
  rw [shrinkExtents, if_neg hk]

theorem shrinkExtents_step {p e total dataMap : Int} {fuel : Nat} {s s' : Shrink}
    (hk : (k : Int) < extentCount s.img p) (h : shrinkExtent total dataMap e k s = s') :
    shrinkExtents p e total dataMap (fuel + 1) k s = shrinkExtents p e total dataMap fuel (k + 1)
      { s' with img := setExtentLength (setExtentCount s'.img p s'.result1) e k s'.result2 } := by
  rw [shrinkExtents, if_pos hk, h]

section ShrinkLoop

variable {img₀ : Image} {total : Int}

/-- A cleared data bit keeps the record and the extents. -/
theorem ShrinkInv.clearBit {j : Int} (hlo : -1 ≤ j) (hhi : j < 65536)
    (h : ShrinkInv L i k img₀ img) : ShrinkInv L i k img₀ (modify img L.dataMapAt j false) := by
  have hrecord := L.recordAt_ge i
  have hextent := L.extentAt_ge i
  have hsame : L.SameTail (modify img L.dataMapAt j false) img := by
    rcases Int.lt_or_le j 0 with hneg | hnonneg
    · rw [show j = -1 by omega, modify_neg_one]
      exact Layout.SameTail.refl L img
    · obtain ⟨b, rfl⟩ := Int.eq_ofNat_of_zero_le hnonneg
      exact Layout.sameTail_modify_dataMap (by omega)
  refine ⟨h.shrunk.clearBit hlo hhi, ?_, ?_⟩
  · have hcount : extentCount (modify img L.dataMapAt j false) (L.recordAt i) =
        extentCount img (L.recordAt i) := i32_congr fun x hx _ => hsame x (by omega)
    rw [hcount]
    exact h.count
  · exact AgreeOn.trans (fun x hx _ => hsame x (by omega)) h.extents

variable (hi : i < L.inodes) (hcount₀ : extentCount img₀ (L.recordAt i) ≤ 512)
include hi

/-- Stores to extent `k` keep the extents behind it. -/
theorem ShrinkInv.setExtentLength {v : Int} (hk : k < 512) (h : ShrinkInv L i (k + 1) img₀ img) :
    ShrinkInv L i (k + 1) img₀ (setExtentLength img (L.extentAt i) k v) := by
  have hrecords := L.records
  have hrecord : L.recordAt i = 4096 * L.inodeTable + 64 * i := rfl
  have hextent : L.extentAt i = 4096 * (L.extents + i) := rfl
  have hge := L.extentAt_ge i
  refine ⟨h.shrunk.of_sameHead ((Layout.SameHead.refl L img).set32 (.inl (by omega))), ?_, ?_⟩
  · have hsame : extentCount (FileSystem.setExtentLength img (L.extentAt i) k v) (L.recordAt i) =
        extentCount img (L.recordAt i) := i32_congr (store_agreeOn (by omega))
    rw [hsame]
    exact h.count
  · exact AgreeOn.trans (store_agreeOn (by rw [length_leBytes]; omega)) h.extents

/-- A count that is not larger goes to the record. -/
theorem ShrinkInv.setExtentCount {v : Int} (h : ShrinkInv L i k img₀ img) (hlo : 0 ≤ v)
    (hhi : v < 2147483648) (hv : v ≤ extentCount img₀ (L.recordAt i)) :
    ShrinkInv L i k img₀ (setExtentCount img (L.recordAt i) v) := by
  have hrecords := L.records
  have hrecord : L.recordAt i = 4096 * L.inodeTable + 64 * i := rfl
  have hextent : L.extentAt i = 4096 * (L.extents + i) := rfl
  have hge := L.recordAt_ge i
  refine ⟨h.shrunk.of_sameHead ((Layout.SameHead.refl L img).setExtentCount hge), ?_, ?_⟩
  · rw [extentCount, FileSystem.setExtentCount, i32, u32_set32_self, int32_uint32,
      int32_of_bounds (by omega) hhi]
    exact hv
  · exact AgreeOn.trans (store_agreeOn (by rw [length_leBytes]; omega)) h.extents

/-- A round of the inner loop of the shrinking branch. -/
theorem shrinkBlock_inv {s : Shrink} {start j : Int} (hk : k < 512)
    (hkcount : (k : Int) ≤ extentCount img₀ (L.recordAt i)) (hlo : -1 ≤ j) (hhi : j < 65536)
    (h : ShrinkInv L i (k + 1) img₀ s.img)
    (hresult : 0 ≤ s.result1 ∧ s.result1 ≤ extentCount img₀ (L.recordAt i)) :
    ShrinkInv L i (k + 1) img₀ (shrinkBlock total L.dataMapAt (L.extentAt i) k start s j).img ∧
      0 ≤ (shrinkBlock total L.dataMapAt (L.extentAt i) k start s j).result1 ∧
        (shrinkBlock total L.dataMapAt (L.extentAt i) k start s j).result1 ≤
          extentCount img₀ (L.recordAt i) := by
  rw [shrinkBlock]
  by_cases hw : s.w = total
  · simp only [hw, if_true, lt_irrefl, if_false]
    exact ⟨h.setExtentLength hi hk, Int.natCast_nonneg k, hkcount⟩
  · simp only [hw, if_false]
    by_cases hgt : total < s.w
    · simp only [hgt, if_true]
      exact ⟨h.clearBit hlo hhi, hresult⟩
    · simp only [hgt, if_false]
      exact ⟨h, hresult⟩

/-- The inner loop of the shrinking branch. -/
theorem shrinkExtent_inv {s : Shrink} (hk : k < 512)
    (hkcount : (k : Int) ≤ extentCount img₀ (L.recordAt i))
    (hjs : ∀ j ∈ extentBlocks s.img (L.extentAt i) k, -1 ≤ j ∧ j < 65536)
    (h : ShrinkInv L i (k + 1) img₀ s.img)
    (hresult : 0 ≤ s.result1 ∧ s.result1 ≤ extentCount img₀ (L.recordAt i)) :
    ShrinkInv L i (k + 1) img₀ (shrinkExtent total L.dataMapAt (L.extentAt i) k s).img ∧
      0 ≤ (shrinkExtent total L.dataMapAt (L.extentAt i) k s).result1 ∧
        (shrinkExtent total L.dataMapAt (L.extentAt i) k s).result1 ≤
          extentCount img₀ (L.recordAt i) := by
  rw [shrinkExtent]
  generalize int32 (extentStart s.img (L.extentAt i) k) = start
  generalize extentBlocks s.img (L.extentAt i) k = js at hjs
  induction js generalizing s with
  | nil => exact ⟨h, hresult⟩
  | cons j js ih =>
      obtain ⟨hlo, hhi⟩ := hjs j List.mem_cons_self
      have hstep : ShrinkInv L i (k + 1) img₀
          (shrinkBlock total L.dataMapAt (L.extentAt i) k start s j).img ∧ _ :=
        shrinkBlock_inv hi hk hkcount hlo hhi h hresult
      exact ih hstep.1 hstep.2 fun m hm => hjs m (List.mem_cons_of_mem _ hm)

include hcount₀

/-- The outer loop of the shrinking branch clears data bits only. -/
theorem shrinkExtents_shrunk {s : Shrink} (fuel : Nat)
    (hjs : ∀ k : Nat, (k : Int) < extentCount img₀ (L.recordAt i) →
      ∀ j ∈ extentBlocks img₀ (L.extentAt i) k, -1 ≤ j ∧ j < 65536)
    (h : ShrinkInv L i k img₀ s.img)
    (hresult : 0 ≤ s.result1 ∧ s.result1 ≤ extentCount img₀ (L.recordAt i)) :
    Shrunk L img₀ (shrinkExtents (L.recordAt i) (L.extentAt i) total L.dataMapAt fuel k s).img := by
  induction fuel generalizing k s with
  | zero => exact h.shrunk
  | succ fuel ih =>
      by_cases hk : (k : Int) < extentCount s.img (L.recordAt i)
      · have hlt : (k : Int) < extentCount img₀ (L.recordAt i) := lt_of_lt_of_le hk h.count
        have hsame : extentBlocks s.img (L.extentAt i) k = extentBlocks img₀ (L.extentAt i) k := by
          have hstart : extentStart s.img (L.extentAt i) k = extentStart img₀ (L.extentAt i) k :=
            u32_congr (h.extents.mono (by omega) (by omega))
          have hlength : extentLength s.img (L.extentAt i) k =
              extentLength img₀ (L.extentAt i) k :=
            u32_congr (h.extents.mono (by omega) (by omega))
          rw [extentBlocks, extentBlocks, hstart, hlength]
        have hnext : ShrinkInv L i (k + 1) img₀ s.img :=
          ⟨h.shrunk, h.count, h.extents.mono (by omega) (le_refl _)⟩
        have hloop : ShrinkInv L i (k + 1) img₀
            (shrinkExtent total L.dataMapAt (L.extentAt i) k s).img ∧ _ :=
          shrinkExtent_inv hi (by omega) hlt.le (by rw [hsame]; exact hjs k hlt) hnext hresult
        obtain ⟨s', hs'⟩ : ∃ s', shrinkExtent total L.dataMapAt (L.extentAt i) k s = s' := ⟨_, rfl⟩
        rw [shrinkExtents_step hk hs']
        rw [hs'] at hloop
        obtain ⟨hinv, hlo, hhi⟩ := hloop
        exact ih ((hinv.setExtentCount hi hlo (by omega) hhi).setExtentLength hi (by omega))
          ⟨hlo, hhi⟩
      · rw [shrinkExtents_stop hk]
        exact h.shrunk

end ShrinkLoop

/-! ## The calls -/

/-- The image after the update of `free_blocks_count`. -/
def chargedBlocks (img : Image) (old size : Nat) : Image :=
  setFreeBlocksCount img (freeBlocksCount img -
    ((int32 (size - (old % 4096 : Nat))).tdiv 4096 + 1))

theorem chargedBlocks_apply {old : Nat} {x : Int} (hx : 4096 * (L.inodeTable : Int) ≤ x) :
    chargedBlocks img old size x = img x := by
  have hpos := L.head_pos
  exact setFreeBlocksCount_apply (by omega)

namespace Layout

/-- The block that `a1fs_truncate` clears first. A file without extents takes a bit for
it. -/
def reached (L : Layout) (img : Image) (i : Nat) (nd : Node) : Image × Int :=
  if nd.extents = [] then
    (updateExtent (modify img L.inodeMapAt (findNextBit img L.inodeMapAt) true) i
      (findNextBit img L.inodeMapAt), findNextBit img L.inodeMapAt)
  else (img, nd.lastBlock + 1)

/-- The branch of `a1fs_truncate` for another size. -/
def resized (L : Layout) (i old size : Nat) (found : Image × Int) : Image :=
  growFile i L.inodeMapAt ((int32 (size - (old % 4096 : Nat))).tdiv 4096).toNat
    (fill found.1 (dataAddr found.1 found.2 + (old % 4096 : Nat)) 0 (4096 - old % 4096))

/-- The branch of `a1fs_truncate` for the size that the file has. -/
def sameSized (L : Layout) (i size : Nat) (img : Image) : Shrink :=
  shrinkExtents (L.recordAt i) (L.extentAt i) (int32 (size / 4096 : Nat)) L.dataMapAt intRange 0
    ⟨img, 0, extentCount img (L.recordAt i), int32 (extentLength img (L.extentAt i) 0)⟩

end Layout

section Reached

variable (h : nd.At L img i) (hok : nd.Ok L) (hof : L.Of img)
include h hok hof

theorem Node.At.drift : Drift L i img img := by
  have hext := hok.extents_le
  refine ⟨hof, h.number, ?_, rfl, rfl, fun _ _ => rfl, fun _ _ hset => hset, fun _ _ _ => rfl⟩
  rw [h.count]
  omega

variable (hi : i < L.inodes)
include hi

theorem reached_drift : Drift L i img (L.reached img i nd).1 := by
  have hdrift := h.drift hok hof
  rw [Layout.reached]
  by_cases hext : nd.extents = []
  · rw [if_pos hext]
    dsimp only
    exact hdrift.takeBit.updateExtent hi
  · rw [if_neg hext]
    exact hdrift

/-- The size is still that of the node. -/
theorem reached_size : inodeSize (L.reached img i nd).1 (L.recordAt i) = nd.size := by
  rw [Layout.reached]
  by_cases hext : nd.extents = []
  · have hdrift := (h.drift hok hof).takeBit
    rw [if_pos hext]
    dsimp only
    rw [updateExtent_size hdrift.of hi hdrift.number hdrift.count.1, ← h.size,
      modify_findNextBit]
    apply u64_congr
    intro x hlo _
    have hge := L.recordAt_ge i
    have hpos := L.inodeMapAt_lt
    have htable := L.dataMap_lt
    exact takeFreeBit_apply rfl (by unfold Layout.dataMapAt at hpos; omega)
  · rw [if_neg hext]
    exact h.size

/-- A file without extents takes the least clear inode bit when it is in the first byte. -/
theorem reached_sets (hk : k < 8) (hleast : LeastClear img L.inodeMapAt k)
    (hext : nd.extents = []) : bitSet (L.reached img i nd).1 L.inodeMapAt k = true := by
  have hbits := L.bits_ge
  have hfind := hleast.findNextBit
  rw [Nat.mod_eq_of_lt hk] at hfind
  have htake : bitSet (modify img L.inodeMapAt (findNextBit img L.inodeMapAt) true)
      L.inodeMapAt k = true := by
    rw [hfind, bitSet_modify, if_pos rfl]
  have hself : Drift L i (modify img L.inodeMapAt (findNextBit img L.inodeMapAt) true)
      (updateExtent (modify img L.inodeMapAt (findNextBit img L.inodeMapAt) true) i
        (findNextBit img L.inodeMapAt)) := (h.drift hok hof).takeBit.self.updateExtent hi
  rw [Layout.reached, if_pos hext]
  dsimp only
  exact hself.inodeBit k (by omega) htake

variable (hlast : nd.extents ≠ [] → L.data + (nd.lastBlock + 1) < 524288)
include hlast

/-- The block that is cleared lies in the data or before the image. -/
theorem reached_addr : 4096 * (L.extents : Int) ≤
      dataAddr (L.reached img i nd).1 (L.reached img i nd).2 ∨
    dataAddr (L.reached img i nd).1 (L.reached img i nd).2 ≤ -8192 := by
  have hdrift := reached_drift h hok hof hi
  revert hdrift
  rw [Layout.reached]
  by_cases hext : nd.extents = []
  · have hbounds := findNextBit_bounds img L.inodeMapAt
    rw [if_pos hext]
    intro hdrift
    exact hdrift.of.dataAddr_ge hbounds.1 (by omega)
  · have hge := L.extentBlocks
    rw [if_neg hext]
    intro hdrift
    have haddr : dataAddr img (nd.lastBlock + 1 : Nat) = L.blockAt (nd.lastBlock + 1) :=
      hof.dataAddr (hlast hext)
    have hblock : L.blockAt (nd.lastBlock + 1) = 4096 * (L.data + (nd.lastBlock + 1 : Nat)) := rfl
    left
    dsimp only
    have hcast : (nd.lastBlock : Int) + 1 = (nd.lastBlock + 1 : Nat) := by omega
    rw [hcast, haddr, hblock]
    omega

/-- Another size only sets inode bits in the head. -/
theorem resized_drift : Drift L i img (L.resized i nd.size size (L.reached img i nd)) := by
  have haddr := reached_addr h hok hof hi hlast
  exact ((reached_drift h hok hof hi).fill hi (by omega)).growFile hi _

/-- The least clear inode bit is set when it is in the first byte and a block is looked
for. -/
theorem resized_sets (hk : k < 8) (hleast : LeastClear img L.inodeMapAt k)
    (hneeds : nd.extents = [] ∨ 0 < (int32 (size - (nd.size % 4096 : Nat))).tdiv 4096) :
    bitSet (L.resized i nd.size size (L.reached img i nd)) L.inodeMapAt k = true := by
  have hbits := L.bits_ge
  have haddr := reached_addr h hok hof hi hlast
  by_cases hext : nd.extents = []
  · have hset := reached_sets h hok hof hi hk hleast hext
    have hself := (reached_drift h hok hof hi).self
    exact ((hself.fill hi (by omega)).growFile hi _).inodeBit k (by omega) hset
  · have hpos := hneeds.resolve_left hext
    have hreached : (L.reached img i nd).1 = img := by
      rw [Layout.reached, if_neg hext]
    have hfilled := (reached_drift h hok hof hi).fill (n := 4096 - nd.size % 4096)
      (a := dataAddr (L.reached img i nd).1 (L.reached img i nd).2 + (nd.size % 4096 : Nat)) hi
      (by omega)
    refine hfilled.growFile_sets hi hk ?_ (by omega)
    have hsame : L.SameHead (fill (L.reached img i nd).1
        (dataAddr (L.reached img i nd).1 (L.reached img i nd).2 + (nd.size % 4096 : Nat)) 0
          (4096 - nd.size % 4096)) img := by
      rw [hreached] at haddr ⊢
      have hext := L.extents_lt
      exact (Layout.SameHead.refl L img).fill (by omega)
    exact hleast.congr fun j _ => hsame.inodeBit (by omega)

/-- No inode bit changes when no block is looked for. -/
theorem resized_inodeBit (hext : nd.extents ≠ [])
    (hnone : (int32 (size - (nd.size % 4096 : Nat))).tdiv 4096 ≤ 0) (hk : k < L.inodeBitCount) :
    bitSet (L.resized i nd.size size (L.reached img i nd)) L.inodeMapAt k =
      bitSet img L.inodeMapAt k := by
  have haddr := reached_addr h hok hof hi hlast
  have htable := L.extents_lt
  have hreached : (L.reached img i nd).1 = img := by
    rw [Layout.reached, if_neg hext]
  have hzero : ((int32 (size - (nd.size % 4096 : Nat))).tdiv 4096).toNat = 0 := by omega
  rw [Layout.resized, hzero]
  rw [hreached] at haddr ⊢
  have hsame : L.SameHead (fill img
      (dataAddr img (L.reached img i nd).2 + (nd.size % 4096 : Nat)) 0
        (4096 - nd.size % 4096)) img := (Layout.SameHead.refl L img).fill (by omega)
  exact hsame.inodeBit hk

omit hlast in
/-- The one extent that a file without extents gets. -/
theorem reached_first (hext : nd.extents = []) :
    extentCount (L.reached img i nd).1 (L.recordAt i) = 1 ∧
      extentBlocks (L.reached img i nd).1 (L.extentAt i) 0 = [findNextBit img L.inodeMapAt] := by
  obtain ⟨hlo, hhi⟩ := findNextBit_bounds img L.inodeMapAt
  have hdrift := (h.drift hok hof).takeBit
  have hreached : (L.reached img i nd).1 = updateExtent
      (modify img L.inodeMapAt (findNextBit img L.inodeMapAt) true) i
        (findNextBit img L.inodeMapAt) := by
    rw [Layout.reached, if_pos hext]
  have hnone : extentCount (modify img L.inodeMapAt (findNextBit img L.inodeMapAt) true)
      (L.recordAt i) = 0 := by
    have hsame : extentCount (modify img L.inodeMapAt (findNextBit img L.inodeMapAt) true)
        (L.recordAt i) = extentCount img (L.recordAt i) := by
      have hge := L.recordAt_ge i
      have hmap := L.inodeMapAt_lt
      have htable := L.dataMap_lt
      rw [modify_findNextBit]
      refine i32_congr fun x hlo _ => takeFreeBit_apply rfl ?_
      unfold Layout.dataMapAt at hmap
      omega
    rw [hsame, h.count, hext]
    rfl
  rw [hreached]
  exact updateExtent_first hdrift.of hi hdrift.number hnone hlo
    (show findNextBit img L.inodeMapAt < 65536 by omega)

omit hlast in
/-- The blocks of the extents that the shrinking branch runs over. -/
theorem reached_blocks (hbs : ∀ b ∈ nd.blocks, b < 65536)
    (hk : (k : Int) < extentCount (L.reached img i nd).1 (L.recordAt i)) :
    ∀ j ∈ extentBlocks (L.reached img i nd).1 (L.extentAt i) k, -1 ≤ j ∧ j < 65536 := by
  intro j hj
  by_cases hext : nd.extents = []
  · obtain ⟨hlo, hhi⟩ := findNextBit_bounds img L.inodeMapAt
    obtain ⟨hcount, hblocks⟩ := reached_first h hok hof hi hext
    rw [hcount] at hk
    have hzero : (k : Int) = 0 := by omega
    rw [hzero, hblocks, List.mem_singleton] at hj
    omega
  · have hreached : (L.reached img i nd).1 = img := by
      rw [Layout.reached, if_neg hext]
    rw [hreached] at hj hk
    rw [h.count] at hk
    have hlt : k < nd.extents.length := by omega
    have hmem : nd.extents[k] ∈ nd.extents := List.getElem_mem hlt
    obtain ⟨hstart, hlength⟩ := h.extents k hlt
    have hsum := hok.extent_lt hmem
    rw [extentBlocks_eq hstart hlength (by omega)] at hj
    obtain ⟨b, hb, rfl⟩ := List.mem_map.mp hj
    have hlt := hbs b (List.mem_flatMap.mpr ⟨_, hmem, hb⟩)
    omega

omit hlast in
/-- The size that the file has already only clears data bits in the head. -/
theorem sameSized_shrunk (hbs : ∀ b ∈ nd.blocks, b < 65536) :
    Shrunk L (L.reached img i nd).1 (L.sameSized i size (L.reached img i nd).1).img := by
  have hdrift := reached_drift h hok hof hi
  have hblocks : ∀ k : Nat, (k : Int) < extentCount (L.reached img i nd).1 (L.recordAt i) → _ :=
    fun k hk => reached_blocks h hok hof hi hbs hk
  revert hdrift hblocks
  generalize (L.reached img i nd).1 = img₁
  intro hdrift hblocks
  have hinv : ShrinkInv L i 0 img₁ img₁ :=
    ⟨Shrunk.refl hdrift.of, le_refl _, fun _ _ _ => rfl⟩
  obtain ⟨s, hs⟩ : ∃ s : Shrink, (⟨img₁, 0, extentCount img₁ (L.recordAt i),
    int32 (extentLength img₁ (L.extentAt i) 0)⟩ : Shrink) = s := ⟨_, rfl⟩
  have himg : s.img = img₁ := by rw [← hs]
  have hresult : s.result1 = extentCount img₁ (L.recordAt i) := by rw [← hs]
  rw [Layout.sameSized, hs]
  exact shrinkExtents_shrunk hi hdrift.count.2 intRange hblocks (himg.symm ▸ hinv)
    ⟨hresult ▸ hdrift.count.1, hresult.le⟩

end Reached

namespace WellFormed

variable {t : Target} (wf : WellFormed L img nodes)
  (hi : nodes.resolve (t.dirs ++ [t.name]) = (i : Int)) (hnd : nodes i = some nd)
include wf hi hnd

/-- `a1fs_write` to a file without extents. -/
theorem write_first (hext : nd.extents = []) :
    a1fsWrite img t.path buf offset =
      if findNextBit img L.dataMapAt = -1 then .ok (-enospc, img)
      else (writeInto (giveFirstBlock img (L.recordAt i) (L.extentAt i) L.dataMapAt
        (findNextBit img L.dataMapAt)) (L.recordAt i) (findNextBit img L.dataMapAt) buf offset).map
          fun img => (int32 buf.length, img) := by
  have hlt := wf.closed.inode_lt i nd hnd
  have hcount : extentCount img (L.recordAt i) = 0 := by
    rw [(wf.hold.nodeAt i nd hnd).count, hext]
    rfl
  rw [a1fsWrite, pathInode_target wf hi, ok_bind]
  simp only [wf.of.dataMapAddr, wf.of.inodeAddr hlt.le, wf.of.extentAddr hlt.le]
  rw [if_pos hcount]

/-- `a1fs_write` to a file with extents. -/
theorem write_more (hext : nd.extents ≠ []) :
    a1fsWrite img t.path buf offset =
      (writeInto img (L.recordAt i) (nd.lastBlock + 1 : Nat) buf offset).map
        fun img => (int32 buf.length, img) := by
  have hlt := wf.closed.inode_lt i nd hnd
  have hat := wf.hold.nodeAt i nd hnd
  have hpos := List.length_pos_iff.mpr hext
  have hcount : extentCount img (L.recordAt i) ≠ 0 := by
    rw [hat.count]
    omega
  have hblock := behindLastExtent_eq hat (wf.closed.ok i nd hnd) hext
  rw [a1fsWrite, pathInode_target wf hi, ok_bind]
  simp only [wf.of.inodeAddr hlt.le, wf.of.extentAddr hlt.le, hblock]
  rw [if_neg hcount]
  rfl

/-- `a1fs_truncate`. -/
theorem truncate_run {size : Nat} {img₀ : Image} (himg₀ : chargedBlocks img nd.size size = img₀) :
    a1fsTruncate img t.path size = .ok (0, setSize
      (if size ≠ nd.size then L.resized i nd.size size (L.reached img₀ i nd)
      else (L.sameSized i size (L.reached img₀ i nd).1).img) (L.recordAt i) size) := by
  have hlt := wf.closed.inode_lt i nd hnd
  have hok := wf.closed.ok i nd hnd
  have hsize := (wf.hold.nodeAt i nd hnd).size
  have hof : L.Of img₀ := himg₀ ▸ wf.of.setFreeBlocksCount
  have hat : nd.At L img₀ i := himg₀ ▸ (wf.hold.nodeAt i nd hnd).of_sameTail hok
    Layout.sameTail_setFreeBlocksCount
  have hcharged : setFreeBlocksCount img (freeBlocksCount img -
      ((int32 (size - (nd.size % 4096 : Nat))).tdiv 4096 + 1)) = img₀ := himg₀
  have hfound : (if extentCount img₀ (L.recordAt i) = 0 then
      (updateExtent (modify img₀ L.inodeMapAt (findNextBit img₀ L.inodeMapAt) true) i
        (findNextBit img₀ L.inodeMapAt), findNextBit img₀ L.inodeMapAt)
      else (img₀, behindLastExtent img₀ (L.recordAt i) (L.extentAt i))) =
        L.reached img₀ i nd := by
    rw [Layout.reached, hat.count]
    by_cases hext : nd.extents = []
    · rw [if_pos hext, hext, if_pos (by rfl)]
    · have hpos := List.length_pos_iff.mpr hext
      rw [if_neg hext, if_neg (by omega), behindLastExtent_eq hat hok hext]
  have hreached := reached_size hat hok hof hlt
  have hofReached := (reached_drift hat hok hof hlt).of
  rw [a1fsTruncate, pathInode_target wf hi, ok_bind]
  simp only [wf.of.inodeAddr hlt.le, wf.of.inodeMapAddr, hsize, hcharged, hof.extentAddr hlt.le,
    hat.size, hfound, hreached, hofReached.dataMapAddr, Layout.resized, Layout.sameSized]

end WellFormed

end UoftOs.FileSystem
