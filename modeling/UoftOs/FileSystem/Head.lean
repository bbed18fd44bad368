import UoftOs.FileSystem.Bitmap
import UoftOs.FileSystem.Layout

/-!
# The head of an image

The superblock and the two bitmaps stand before the inode table. Stores behind
them leave counters, layout and bits alone, and what a call does to the head can be
computed on the counters and bits only.
-/

namespace UoftOs.FileSystem

open Lib.ByteMemory

namespace Layout

/-- The images have the same superblock and the same bitmaps. -/
def SameHead (L : Layout) (img' img : Image) : Prop :=
  AgreeOn img' img 0 (4096 * L.inodeTable)

variable {L : Layout} {img img' img'' m m' : Image} {a p v : Int} {bs : List UInt8} {i n : Nat}

theorem SameHead.refl (L : Layout) (img : Image) : L.SameHead img img := fun _ _ _ => rfl

theorem SameHead.trans (h' : L.SameHead img'' img') (h : L.SameHead img' img) :
    L.SameHead img'' img :=
  AgreeOn.trans h' h

theorem SameHead.symm (h : L.SameHead img' img) : L.SameHead img img' := AgreeOn.symm h

theorem head_pos (L : Layout) : 4 * 4096 ≤ 4096 * (L.inodeTable : Int) := by
  have := L.inodeMap_pos
  have := L.inodeMap_lt
  have := L.dataMap_lt
  omega

theorem SameHead.of (h : L.SameHead img' img) (hof : L.Of img) : L.Of img' := by
  have := L.head_pos
  exact hof.congr (AgreeOn.mono h (by omega) (by omega))

theorem SameHead.freeBlocksCount (h : L.SameHead img' img) :
    freeBlocksCount img' = freeBlocksCount img := by
  have := L.head_pos
  exact u32_congr (AgreeOn.mono h (by omega) (by omega))

theorem SameHead.freeInodesCount (h : L.SameHead img' img) :
    freeInodesCount img' = freeInodesCount img := by
  have := L.head_pos
  exact u32_congr (AgreeOn.mono h (by omega) (by omega))

/-- The number of bits of the inode bitmap. -/
def inodeBitCount (L : Layout) : Nat := 32768 * (L.dataMap - L.inodeMap)

theorem inodes_le_bits (L : Layout) : L.inodes ≤ L.inodeBitCount := by
  have := L.inodeBits
  have := L.inodeMap_lt
  unfold inodeBitCount
  omega

theorem bits_ge (L : Layout) : 32768 ≤ L.inodeBitCount := by
  have := L.inodeMap_lt
  unfold inodeBitCount
  omega

/-- The byte of an inode bit lies between the superblock and the data bitmap. -/
theorem inodeByte_bounds (L : Layout) (hi : i < L.inodeBitCount) :
    4096 ≤ L.inodeMapAt + (i / 8 : Nat) ∧ L.inodeMapAt + (i / 8 : Nat) < L.dataMapAt := by
  have := L.inodeMap_pos
  have := L.inodeMap_lt
  unfold inodeBitCount at hi
  unfold inodeMapAt dataMapAt
  omega

/-- The byte of a data bit lies between the inode bitmap and the inode table. -/
theorem dataByte_bounds (L : Layout) (hi : i < 65536) :
    L.dataMapAt ≤ L.dataMapAt + (i / 8 : Nat) ∧
      L.dataMapAt + (i / 8 : Nat) < 4096 * L.inodeTable := by
  have := L.dataMap_lt
  unfold dataMapAt
  omega

theorem dataMapAt_pos (L : Layout) : 8192 ≤ L.dataMapAt := by
  have := L.inodeMap_pos
  have := L.inodeMap_lt
  unfold dataMapAt
  omega

theorem SameHead.inodeBit (h : L.SameHead img' img) (hi : i < L.inodeBitCount) :
    bitSet img' L.inodeMapAt i = bitSet img L.inodeMapAt i := by
  have hbounds := L.inodeByte_bounds hi
  have hlast := L.dataMap_lt
  have hmap : L.dataMapAt = 4096 * (L.dataMap : Int) := rfl
  exact bitSet_congr (h _ (by omega) (by omega))

theorem SameHead.dataBit (h : L.SameHead img' img) (hi : i < 65536) :
    bitSet img' L.dataMapAt i = bitSet img L.dataMapAt i := by
  have hbounds := L.dataByte_bounds hi
  have hpos := L.dataMapAt_pos
  exact bitSet_congr (h _ (by omega) (by omega))

theorem SameHead.inodeSetBits (h : L.SameHead img' img) :
    setBits img' L.inodeMapAt L.inodeBitCount = setBits img L.inodeMapAt L.inodeBitCount :=
  setBits_congr fun _ hi => h.inodeBit hi

theorem SameHead.dataSetBits (h : L.SameHead img' img) :
    setBits img' L.dataMapAt 65536 = setBits img L.dataMapAt 65536 :=
  setBits_congr fun _ hi => h.dataBit hi

/-! ## Stores behind the head -/

theorem SameHead.store (h : L.SameHead img' img)
    (ha : 4096 * (L.inodeTable : Int) ≤ a ∨ a + bs.length ≤ 0) :
    L.SameHead (store img' a bs) img :=
  SameHead.trans (store_agreeOn ha) h

theorem SameHead.fill {c : UInt8} (h : L.SameHead img' img)
    (ha : 4096 * (L.inodeTable : Int) ≤ a ∨ a + n ≤ 0) : L.SameHead (fill img' a c n) img :=
  h.store (by simpa using ha)

theorem SameHead.set32 (h : L.SameHead img' img)
    (ha : 4096 * (L.inodeTable : Int) ≤ a ∨ a + 4 ≤ 0) : L.SameHead (set32 img' a v) img :=
  h.store (by simpa using ha)

theorem SameHead.set64 (h : L.SameHead img' img)
    (ha : 4096 * (L.inodeTable : Int) ≤ a ∨ a + 8 ≤ 0) : L.SameHead (set64 img' a v) img :=
  h.store (by simpa using ha)

/-- Stores to a record of the inode table, or to what follows it. -/
theorem SameHead.setSize (h : L.SameHead img' img) (hp : 4096 * (L.inodeTable : Int) ≤ p) :
    L.SameHead (setSize img' p v) img :=
  h.set64 (.inl (by omega))

theorem SameHead.setLinks (h : L.SameHead img' img) (hp : 4096 * (L.inodeTable : Int) ≤ p) :
    L.SameHead (setLinks img' p v) img :=
  h.set32 (.inl (by omega))

theorem SameHead.setExtentCount (h : L.SameHead img' img)
    (hp : 4096 * (L.inodeTable : Int) ≤ p) : L.SameHead (setExtentCount img' p v) img :=
  h.set32 (.inl (by omega))

theorem SameHead.setDentryIno (h : L.SameHead img' img) (hp : 4096 * (L.inodeTable : Int) ≤ p) :
    L.SameHead (setDentryIno img' p v) img :=
  h.set32 (.inl hp)

theorem SameHead.setDentryName {name : List UInt8} (h : L.SameHead img' img)
    (hp : 4096 * (L.inodeTable : Int) ≤ p) : L.SameHead (setDentryName img' p name) img :=
  h.store (.inl (by omega))

end Layout

/-! ## The counters -/

section Counters

variable {L : Layout} {img img' : Image} {a v : Int} {i : Nat} {value : Bool}

@[simp] theorem freeBlocksCount_setFreeBlocksCount :
    freeBlocksCount (setFreeBlocksCount img v) = uint32 v :=
  u32_set32_self

@[simp] theorem freeInodesCount_setFreeInodesCount :
    freeInodesCount (setFreeInodesCount img v) = uint32 v :=
  u32_set32_self

@[simp] theorem freeBlocksCount_setFreeInodesCount :
    freeBlocksCount (setFreeInodesCount img v) = freeBlocksCount img :=
  u32_set32_of_disjoint (.inl (by decide))

@[simp] theorem freeInodesCount_setFreeBlocksCount :
    freeInodesCount (setFreeBlocksCount img v) = freeInodesCount img :=
  u32_set32_of_disjoint (.inr (by decide))

theorem setFreeBlocksCount_apply {x : Int} (h : x < 44 ∨ 48 ≤ x) :
    setFreeBlocksCount img v x = img x :=
  storeNat_apply_of_outside (by omega)

theorem setFreeInodesCount_apply {x : Int} (h : x < 48 ∨ 52 ≤ x) :
    setFreeInodesCount img v x = img x :=
  storeNat_apply_of_outside (by omega)

theorem Layout.Of.setFreeBlocksCount (h : L.Of img) : L.Of (setFreeBlocksCount img v) :=
  h.congr fun _ _ _ => setFreeBlocksCount_apply (by omega)

theorem Layout.Of.setFreeInodesCount (h : L.Of img) : L.Of (setFreeInodesCount img v) :=
  h.congr fun _ _ _ => setFreeInodesCount_apply (by omega)

theorem Layout.Of.modify (h : L.Of img) (ha : 4096 ≤ a) : L.Of (modify img a i value) :=
  h.congr (modify_agreeOn value (by omega))

theorem bitSet_setFreeBlocksCount (ha : 4096 ≤ a) :
    bitSet (setFreeBlocksCount img v) a i = bitSet img a i :=
  bitSet_congr (setFreeBlocksCount_apply (by omega))

theorem bitSet_setFreeInodesCount (ha : 4096 ≤ a) :
    bitSet (setFreeInodesCount img v) a i = bitSet img a i :=
  bitSet_congr (setFreeInodesCount_apply (by omega))

theorem freeBlocksCount_modify (ha : 4096 ≤ a) :
    freeBlocksCount (modify img a i value) = freeBlocksCount img :=
  u32_congr (modify_agreeOn value (by omega))

theorem freeInodesCount_modify (ha : 4096 ≤ a) :
    freeInodesCount (modify img a i value) = freeInodesCount img :=
  u32_congr (modify_agreeOn value (by omega))

namespace Layout

theorem inodeMapAt_ge (L : Layout) : 4096 ≤ L.inodeMapAt := by
  have := L.inodeMap_pos
  unfold inodeMapAt
  omega

theorem dataMapAt_ge (L : Layout) : 4096 ≤ L.dataMapAt := by
  have := L.dataMapAt_pos
  omega

theorem inodeMapAt_lt (L : Layout) : L.inodeMapAt + 4096 ≤ L.dataMapAt := by
  have := L.inodeMap_lt
  unfold inodeMapAt dataMapAt
  omega

/-- The data bits are not inode bits. -/
theorem dataBit_modify_inodeMap {k : Nat} (hk : k < L.inodeBitCount) :
    bitSet (modify img L.inodeMapAt k value) L.dataMapAt i = bitSet img L.dataMapAt i := by
  have := (L.inodeByte_bounds hk).2
  exact bitSet_congr (modify_apply_of_ne value (by omega))

/-- The inode bits are not data bits. -/
theorem inodeBit_modify_dataMap {k : Nat} (hi : i < L.inodeBitCount) :
    bitSet (modify img L.dataMapAt k value) L.inodeMapAt i = bitSet img L.inodeMapAt i := by
  have := (L.inodeByte_bounds hi).2
  exact bitSet_congr (modify_apply_of_ne value (by omega))

theorem SameHead.setFreeBlocksCount (h : L.SameHead img' img) :
    L.SameHead (setFreeBlocksCount img' v) (setFreeBlocksCount img v) := by
  intro x hlo hhi
  unfold FileSystem.setFreeBlocksCount FileSystem.set32 storeNat
  rw [Lib.ByteMemory.store, Lib.ByteMemory.store, h x hlo hhi]

theorem SameHead.setFreeInodesCount (h : L.SameHead img' img) :
    L.SameHead (setFreeInodesCount img' v) (setFreeInodesCount img v) := by
  intro x hlo hhi
  unfold FileSystem.setFreeInodesCount FileSystem.set32 storeNat
  rw [Lib.ByteMemory.store, Lib.ByteMemory.store, h x hlo hhi]

/-- `modify` of a bit whose byte lies in the head. -/
theorem SameHead.modify (h : L.SameHead img' img) (hlo : 0 ≤ a)
    (hhi : a + (i / 8 : Nat) < 4096 * L.inodeTable) :
    L.SameHead (modify img' a i value) (modify img a i value) := by
  intro x hx hx'
  have hbyte : 0 ≤ a + (i / 8 : Nat) := Int.add_nonneg hlo (Int.natCast_nonneg _)
  rcases eq_or_ne x (a + (i / 8 : Nat)) with rfl | hne
  · rw [modify_apply, modify_apply, h _ hbyte hhi]
  · rw [modify_apply_of_ne value hne, modify_apply_of_ne value hne, h x hx hx']

end Layout

end Counters

end UoftOs.FileSystem
