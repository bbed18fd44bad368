import Mathlib.Algebra.Group.Nat.Defs
import UoftOs.Lib.ByteMemory

/-!
# The on-disk structures of a1fs

The image is a memory whose address 0 is `fs->image`. A pointer into it is an
address, a field access is a load or a store at the offset of the field.

## Implementation notes

C `int` and `unsigned` values are `Int` and `Nat`; `int32` and `uint32` wrap where
the source computes with 32 bits. Addresses outside of the image are memory like
any other, so a stray store is kept and not hidden behind an error.
-/

namespace UoftOs.FileSystem

open Lib.ByteMemory Lib.Frames

/-- The mapped image and the memory around it. -/
abbrev Image := Memory

/-- What the C program leaves undefined or aborts on. -/
inductive Fault
  | overflow
  | unterminated
  | uninitialized
  | assertion
  deriving DecidableEq, Repr

theorem ok_bind {α β : Type} (a : α) (f : α → Except Fault β) : (Except.ok a >>= f) = f a := rfl

theorem bind_eq_ok {α β : Type} {x : Except Fault α} {f : α → Except Fault β} {b : β} :
    x >>= f = .ok b ↔ ∃ a, x = .ok a ∧ f a = .ok b := by
  cases x with
  | error e => simp [bind, Except.bind]
  | ok a => simp [bind, Except.bind]

theorem map_eq_ok {α β : Type} {x : Except Fault α} {f : α → β} {b : β} :
    x.map f = .ok b ↔ ∃ a, x = .ok a ∧ f a = b := by
  cases x with
  | error e => simp [Except.map]
  | ok a => simp [Except.map]

/-- The value of a 32-bit `int`. -/
def int32 (x : Int) : Int := x.bmod 4294967296

/-- The value of a 32-bit `unsigned`. -/
def uint32 (x : Int) : Nat := (x % 4294967296).toNat

/-- The value of a 64-bit `size_t`. -/
def uint64 (x : Int) : Nat := (x % 18446744073709551616).toNat

theorem int32_of_bounds {x : Int} (hlo : -2147483648 ≤ x) (hhi : x < 2147483648) :
    int32 x = x := by
  unfold int32
  exact Int.bmod_eq_of_le (by omega) (by omega)

theorem int32_bounds (x : Int) : -2147483648 ≤ int32 x ∧ int32 x < 2147483648 := by
  unfold int32
  have hlo := Int.le_bmod (x := x) (m := 4294967296) (by omega)
  have hhi := Int.bmod_lt (x := x) (m := 4294967296) (by omega)
  omega

theorem tdiv_block_bounds {x : Int} (hlo : -2147483648 ≤ x) (hhi : x < 2147483648) :
    -524288 ≤ x.tdiv 4096 ∧ x.tdiv 4096 < 524288 := by
  have hsign : Int.sign 4096 = 1 := rfl
  rw [Int.tdiv_eq_ediv, hsign]
  split <;> omega

theorem uint32_of_bounds {x : Int} (hlo : 0 ≤ x) (hhi : x < 4294967296) :
    (uint32 x : Int) = x := by
  unfold uint32
  rw [Int.emod_eq_of_lt hlo hhi, Int.toNat_of_nonneg hlo]

theorem uint64_of_bounds {x : Int} (hlo : 0 ≤ x) (hhi : x < 18446744073709551616) :
    (uint64 x : Int) = x := by
  unfold uint64
  rw [Int.emod_eq_of_lt hlo hhi, Int.toNat_of_nonneg hlo]

/-- An `unsigned` field. -/
def u32 (img : Image) (a : Int) : Nat := load 4 img a

/-- An `int` field. -/
def i32 (img : Image) (a : Int) : Int := int32 (u32 img a)

/-- A 64-bit unsigned field. -/
def u64 (img : Image) (a : Int) : Nat := load 8 img a

/-- Assignment to a 32-bit field. -/
def set32 (img : Image) (a : Int) (v : Int) : Image := storeNat 4 img a (uint32 v)

/-- Assignment to a 64-bit field. -/
def set64 (img : Image) (a : Int) (v : Int) : Image := storeNat 8 img a (uint64 v)

/-! ## `a1fs_superblock` -/

def magicOf (img : Image) : Nat := u64 img 0
def startInodeMap (img : Image) : Int := i32 img 16
def startDataMap (img : Image) : Int := i32 img 20
def startInode (img : Image) : Int := i32 img 24
def startExtent (img : Image) : Int := i32 img 28
def startData (img : Image) : Int := i32 img 32
def inodesCount (img : Image) : Nat := u32 img 36
def blocksCount (img : Image) : Nat := u32 img 40
def freeBlocksCount (img : Image) : Nat := u32 img 44
def freeInodesCount (img : Image) : Nat := u32 img 48

def setFreeBlocksCount (img : Image) (v : Int) : Image := set32 img 44 v
def setFreeInodesCount (img : Image) (v : Int) : Image := set32 img 48 v

/-! ## `a1fs_inode`, by the address of the record -/

def inodeMode (img : Image) (p : Int) : Nat := u32 img p
def inodeLinks (img : Image) (p : Int) : Nat := u32 img (p + 4)
def inodeSize (img : Image) (p : Int) : Nat := u64 img (p + 8)
def inoNumber (img : Image) (p : Int) : Int := i32 img (p + 32)
def extentCount (img : Image) (p : Int) : Int := i32 img (p + 36)

def setMode (img : Image) (p v : Int) : Image := set32 img p v
def setLinks (img : Image) (p v : Int) : Image := set32 img (p + 4) v
def setSize (img : Image) (p v : Int) : Image := set64 img (p + 8) v
def setInoNumber (img : Image) (p v : Int) : Image := set32 img (p + 32) v
def setExtentCount (img : Image) (p v : Int) : Image := set32 img (p + 36) v

/-! ## `a1fs_extent_block`, by the address of the block -/

def extentStart (img : Image) (e i : Int) : Nat := u32 img (e + 8 * i)
def extentLength (img : Image) (e i : Int) : Nat := u32 img (e + 8 * i + 4)

def setExtentStart (img : Image) (e i v : Int) : Image := set32 img (e + 8 * i) v
def setExtentLength (img : Image) (e i v : Int) : Image := set32 img (e + 8 * i + 4) v

/-! ## `a1fs_dentry`, by the address of the entry -/

def dentryIno (img : Image) (d : Int) : Nat := u32 img d

def setDentryIno (img : Image) (d v : Int) : Image := set32 img d v

/-- `strcpy` into the name field. -/
def setDentryName (img : Image) (d : Int) (name : List UInt8) : Image :=
  store img (d + 4) (terminated name)

/-! ## Addresses -/

/-- `b * A1FS_BLOCK_SIZE` in `int` arithmetic. -/
def blockOff (b : Int) : Int := int32 (int32 b * 4096)

/-- `b * A1FS_BLOCK_SIZE` in `unsigned` arithmetic. -/
def blockOffUnsigned (b : Int) : Int := uint32 (uint32 b * 4096)

/-- The record of an inode. -/
def inodeAddr (img : Image) (ino : Int) : Int := blockOff (startInode img) + int32 (ino * 64)

/-- The extent block of an inode. -/
def extentAddr (img : Image) (ino : Int) : Int := blockOff (startExtent img + ino)

/-- The first byte of a data block. -/
def dataAddr (img : Image) (block : Int) : Int := blockOff (startData img + block)

def inodeMapAddr (img : Image) : Int := blockOff (startInodeMap img)
def dataMapAddr (img : Image) : Int := blockOff (startDataMap img)

/-! ## File modes -/

/-- `S_IFDIR`. -/
def sIfDir : Nat := 0o040000

/-- `S_ISDIR(mode)`. -/
def sIsDir (mode : Nat) : Bool := mode &&& 0o170000 == 0o040000

/-- `S_ISREG(mode)`. -/
def sIsReg (mode : Nat) : Bool := mode &&& 0o170000 == 0o100000

/-- The test for a directory in `path_inode`: `(mode|0777) == (S_IFDIR|0777)`. -/
def plainDirectory (mode : Nat) : Bool := mode ||| 0o777 == sIfDir ||| 0o777

theorem sIsDir_of_plainDirectory {mode : Nat} (h : plainDirectory mode) : sIsDir mode := by
  have heq : mode ||| 0o777 = sIfDir ||| 0o777 := by simpa [plainDirectory] using h
  have hmask : (mode ||| 0o777) &&& 0o170000 = mode &&& 0o170000 := by
    rw [Nat.and_or_distrib_right]
    simp
  rw [sIsDir, ← hmask, heq]
  rfl

theorem not_sIsDir_of_sIsReg {mode : Nat} (h : sIsReg mode) : ¬ sIsDir mode := by
  have heq : mode &&& 0o170000 = 0o100000 := by simpa [sIsReg] using h
  simp [sIsDir, heq]

/-! ## Fields after a store -/

variable {img : Image} {a b v : Int} {bs : List UInt8} {n : Nat}

theorem uint32_lt {x : Int} : uint32 x < 4294967296 := by
  unfold uint32
  omega

theorem int32_uint32 {x : Int} : int32 (uint32 x) = int32 x := by
  have hnonneg : 0 ≤ x % 4294967296 := Int.emod_nonneg x (by omega)
  rw [int32, uint32, Int.toNat_of_nonneg hnonneg, int32]
  exact Int.emod_bmod x 4294967296

theorem u32_set32_self : u32 (set32 img a v) a = uint32 v :=
  load_storeNat_of_lt uint32_lt

theorem u32_set32_of_disjoint (h : b + 4 ≤ a ∨ a + 4 ≤ b) :
    u32 (set32 img a v) b = u32 img b :=
  load_storeNat_of_disjoint h

theorem u32_set64_of_disjoint (h : b + 4 ≤ a ∨ a + 8 ≤ b) :
    u32 (set64 img a v) b = u32 img b :=
  load_storeNat_of_disjoint h

theorem u32_store_of_disjoint (h : b + 4 ≤ a ∨ a + bs.length ≤ b) :
    u32 (store img a bs) b = u32 img b :=
  load_store_of_disjoint h

theorem u32_fill_of_disjoint {c : UInt8} (h : b + 4 ≤ a ∨ a + n ≤ b) :
    u32 (fill img a c n) b = u32 img b :=
  load_fill_of_disjoint h

theorem u32_congr {img' : Image} (h : AgreeOn img' img a (a + 4)) : u32 img' a = u32 img a :=
  load_congr h

theorem i32_congr {img' : Image} (h : AgreeOn img' img a (a + 4)) : i32 img' a = i32 img a := by
  rw [i32, u32_congr h, i32]

theorem u64_congr {img' : Image} (h : AgreeOn img' img a (a + 8)) : u64 img' a = u64 img a :=
  load_congr h

theorem u64_set64_self : u64 (set64 img a v) a = uint64 v := by
  apply load_storeNat_of_lt
  unfold uint64
  omega

theorem u64_set32_of_disjoint (h : b + 8 ≤ a ∨ a + 4 ≤ b) :
    u64 (set32 img a v) b = u64 img b :=
  load_storeNat_of_disjoint h

end UoftOs.FileSystem
