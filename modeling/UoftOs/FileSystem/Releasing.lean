import UoftOs.FileSystem.Extents
import UoftOs.FileSystem.Removing

/-!
# The bits that rmdir clears

On an image with a layout, well-formed or not, a successful `a1fs_rmdir` clears the bit
of the removed inode and the bits of the blocks that its extents list, and writes no
other bit. The extents may overlap, repeat or be out of order.

## Implementation notes

`a1fs_rmdir` looks the parent up after it has cleared the bits. `Removable` asks that
the parent's path leads to its inode by what stands behind the bitmaps, so that the two
lookups agree; it does in a well-formed image.

Addresses are `int` values. A block of the parent between 2 and 4 GiB has a negative one,
outside the image; one behind 4 GiB may have the address of a bitmap.
-/

namespace UoftOs.FileSystem

open Lib.ByteMemory

variable {L : Layout} {img img' : Image} {path : Path} {stale : Nat → UInt8} {i p k : Nat}
  {e : Int}

/-- The paths lead to the inodes `i` and `p` of the layout, the extents of `i` list blocks
with a bit in the first block of the data bitmap, and those of `p` blocks of the data
region. -/
structure Removable (L : Layout) (img : Image) (path : Path) (stale : Nat → UInt8) (i p : Nat) :
    Prop where
  target : pathInode img path = .ok (i : Int)
  target_lt : i < L.inodes
  parent : ∀ img', L.Of img' → L.SameTail img' img →
    ∃ name, oldEntryParent img' stale path = .ok ((p : Int), name)
  parent_lt : p < L.inodes
  targetBlocks : ∀ b ∈ flattened img i, b < 32768
  parentBlocks : ∀ b ∈ flattened img p, b < L.blocks

/-! ## Blocks that extents list -/

namespace Removable

variable (h : Removable L img path stale i p)
include h

theorem target_block_lt : ∀ b ∈ flattened img i, b < 65536 := fun b hb =>
  (h.targetBlocks b hb).trans (by decide)

theorem released_sameTail :
    L.SameTail (L.released id (flattened img i) (L.freedInode img i)) img := by
  have hbits := L.inodes_le_bits
  have hlt := h.target_lt
  exact (FileSystem.released_sameTail headUpdate_id h.target_block_lt).trans
    (Layout.freedInode_sameTail (by omega))

variable (hof : L.Of img)
include hof

end Removable

theorem Node.At.flattened {nd : Node} (h : nd.At L img i) (hof : L.Of img) (hi : i < L.inodes) :
    flattened img i = nd.blocks := by
  rw [FileSystem.flattened, hof.inodeAddr hi.le, hof.extentAddr hi.le, h.count, Int.toNat_natCast]
  apply flatMap_range_of_getElem
  intro k hk
  obtain ⟨hstart, hlength⟩ := h.extents k hk
  rw [extentRange, hstart, hlength]

/-- In a well-formed image each path below a directory leads to its inodes by what stands
behind the bitmaps. -/
theorem WellFormed.removable {nodes : Nodes} {nd pn : Node} {t : Target}
    (wf : WellFormed L img nodes) (hi : nodes.resolve (t.dirs ++ [t.name]) = (i : Int))
    (hnd : nodes i = some nd) (hp : nodes.resolve t.dirs = (p : Int)) (hpn : nodes p = some pn)
    (hsmall : ∀ b ∈ nd.blocks, b < 32768) (hlen : t.path.length < 100)
    (hbuf : t.dirs ≠ [] → BufferReads stale t.dirs) :
    Removable L img t.path stale i p where
  target := pathInode_target wf hi
  target_lt := wf.closed.inode_lt i nd hnd
  parent := fun img' hof same => by
    have hold : Holds L img' nodes := wf.hold.congr wf.closed hof same
    refine ⟨t.name, ?_⟩
    rw [oldEntryParent_eq hlen hbuf, Target.parent,
      hold.pathInode wf.closed t.dir_component t.length_parent_lt, hp]
    rfl
  parent_lt := wf.closed.inode_lt p pn hpn
  targetBlocks := by
    rw [(wf.hold.nodeAt i nd hnd).flattened wf.of (wf.closed.inode_lt i nd hnd)]
    exact hsmall
  parentBlocks := by
    rw [(wf.hold.nodeAt p pn hpn).flattened wf.of (wf.closed.inode_lt p pn hpn)]
    exact wf.block_lt p pn hpn

/-! ## Overlapping extents -/

end UoftOs.FileSystem
