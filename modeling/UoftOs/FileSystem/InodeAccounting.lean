import UoftOs.FileSystem.Accounting
import UoftOs.FileSystem.Fresh

/-!
# Inode accounting

`free_inodes_count` and the inode bitmap add up after a call exactly if the call meets
its condition. `a1fs_create` decrements the counter before its check and not again when
it is refused, `a1fs_truncate` takes its blocks from the inode bitmap.
-/

namespace UoftOs.FileSystem

open Lib.ByteMemory

/-- The calls that keep the equation. -/
def Call.KeepsInodes (img : Image) : Call → Prop
  | .mkdir t _ _ =>
      freeInodesCount img = 0 ∨ freeBlocksCount img = 0 ∨
        (t.path.length < 100 ∧ RoomInFirstByte img (inodeMapAddr img))
  | .create t _ _ =>
      2 ≤ freeInodesCount img ∧ freeBlocksCount img ≠ 0 ∧ t.path.length < 100 ∧
        RoomInFirstByte img (inodeMapAddr img)
  | .rmdir t _ =>
      (Leads img t.path fun i => inodeLinks img (inodeAddr img i) ≠ 2) ∨
        (t.path.length < 100 ∧
          Leads img t.parent fun p =>
            RemovalReads img (inodeAddr img p) (extentAddr img p) t.name)
  | .unlink t _ =>
      t.path.length < 100 ∧
        Leads img t.parent fun p => RemovalReads img (strayAddr img p) (extentAddr img p) t.name
  | .write t _ offset =>
      Leads img t.path fun i =>
        (extentCount img (inodeAddr img i) = 0 ∧ Full img (dataMapAddr img)) ∨
          GapFits img (inodeAddr img i) offset
  | .truncate t size =>
      ¬ RoomInFirstByte img (inodeMapAddr img) ∨
        Leads img t.path fun i => extentCount img (inodeAddr img i) ≠ 0 ∧
          (size = inodeSize img (inodeAddr img i) ∨
            (int32 (size - (inodeSize img (inodeAddr img i) % 4096 : Nat))).tdiv 4096 ≤ 0)

variable {L : Layout} {img : Image} {nodes : Nodes} {t : Target} {mode : Nat}
  {stale : Nat → UInt8} {c : Call}

namespace WellFormed

section Balanced

variable (wf : WellFormed L img nodes) (hbal : InodesBalanced img)
include wf hbal

/-- The equation in terms of the tally. -/
theorem tally_inodeBalance : freeInodesCount img + (L.tally img).usedInodes = L.inodes ∧
    L.inodes < 524288 := by
  have hsum := wf.of.inodesBalanced_iff.mp hbal
  rw [Layout.tally_freeInodes] at hsum
  exact ⟨hsum, L.inodes_lt⟩

theorem mkdir_keepsInodes (hc : (Call.mkdir t mode stale).Allowed img)
    (hfinds : (Call.mkdir t mode stale).FindsParent img) :
    (Call.mkdir t mode stale).Leaves img InodesBalanced ↔
      (Call.mkdir t mode stale).KeepsInodes img := by
  obtain ⟨hsum, hlt⟩ := wf.tally_inodeBalance hbal
  rw [Call.KeepsInodes, ← or_assoc]
  rcases wf.mkdir_ends hc hfinds with ⟨hfree, hrun⟩ |
    ⟨hfree, ⟨hlen, hrun⟩ | ⟨hlen, i, b, img', hrun, hof, hroom, _, htally⟩⟩
  · rw [Call.leaves_iff hrun]
    exact iff_of_true hbal (.inl hfree)
  · exact iff_of_false (Call.not_leaves hrun) fun h => hlen (h.resolve_left hfree).1
  · rw [Call.leaves_iff hrun, hof.inodesBalanced_iff, htally, wf.of.inodeMapAddr, ← hroom,
      or_iff_right hfree, and_iff_right hlen]
    have hpos : freeInodesCount img ≠ 0 := fun h => hfree (.inl h)
    have hcount : uint32 ((freeInodesCount img : Int) - 1) = freeInodesCount img - 1 := by
      unfold uint32
      omega
    simp only [hcount]
    split
    · omega
    · omega

theorem create_keepsInodes (hc : (Call.create t mode stale).Allowed img)
    (hfinds : (Call.create t mode stale).FindsParent img) :
    (Call.create t mode stale).Leaves img InodesBalanced ↔
      (Call.create t mode stale).KeepsInodes img := by
  obtain ⟨hsum, hlt⟩ := wf.tally_inodeBalance hbal
  rw [Call.KeepsInodes]
  rcases wf.create_ends hc hfinds with ⟨hfree, hrun⟩ |
    ⟨hfree, ⟨hlen, hrun⟩ | ⟨hlen, i, img', hrun, hof, hroom, htally⟩⟩
  · rw [Call.leaves_iff hrun, wf.of.setFreeInodesCount.inodesBalanced_iff,
      Layout.tally_setFreeInodesCount]
    unfold uint32 at hfree ⊢
    refine iff_of_false ?_ ?_
    · dsimp only
      omega
    · rintro ⟨htwo, hpos, _⟩
      omega
  · exact iff_of_false (Call.not_leaves hrun) fun h => hlen h.2.2.1
  · rw [Call.leaves_iff hrun, hof.inodesBalanced_iff, htally, wf.of.inodeMapAddr, ← hroom]
    simp only [hlen, true_and]
    unfold uint32 at hfree ⊢
    split <;> omega

theorem rmdir_keepsInodes (hc : (Call.rmdir t stale).Allowed img)
    (hfinds : (Call.rmdir t stale).FindsParent img) :
    (Call.rmdir t stale).Leaves img InodesBalanced ↔ (Call.rmdir t stale).KeepsInodes img := by
  obtain ⟨hsum, hle⟩ := wf.tally_inodeBalance hbal
  rw [Call.KeepsInodes]
  rcases wf.rmdir_ends hc hfinds with ⟨hlinks, hrun⟩ |
    ⟨hlinks, ⟨hfault, f, hrun⟩ | ⟨hreads, k, img', _, hrun, hof, _, _, hfree, hused⟩⟩
  · rw [Call.leaves_iff hrun]
    exact iff_of_true hbal (.inl hlinks)
  · exact iff_of_false (Call.not_leaves hrun) fun h => hfault (h.resolve_left hlinks)
  · rw [Call.leaves_iff hrun, hof.inodesBalanced_iff, hfree]
    refine iff_of_true ?_ (.inr hreads)
    unfold uint32
    omega

theorem unlink_keepsInodes (hc : (Call.unlink t stale).Allowed img)
    (hfinds : (Call.unlink t stale).FindsParent img) :
    (Call.unlink t stale).Leaves img InodesBalanced ↔ (Call.unlink t stale).KeepsInodes img := by
  obtain ⟨hsum, hle⟩ := wf.tally_inodeBalance hbal
  rw [Call.KeepsInodes]
  rcases wf.unlink_ends hc hfinds with ⟨hfault, f, hrun⟩ |
    ⟨hreads, k, img', hrun, hof, _, _, hfree, hused⟩
  · exact iff_of_false (Call.not_leaves hrun) hfault
  · rw [Call.leaves_iff hrun, hof.inodesBalanced_iff, hfree]
    refine iff_of_true ?_ hreads
    unfold uint32
    omega

theorem write_keepsInodes {buf : List UInt8} {offset : Nat}
    (hc : (Call.write t buf offset).Allowed img) :
    (Call.write t buf offset).Leaves img InodesBalanced ↔
      (Call.write t buf offset).KeepsInodes img := by
  obtain ⟨hsum, hle⟩ := wf.tally_inodeBalance hbal
  obtain ⟨i, hpath, hlt, hends⟩ := wf.write_ends hc
  rw [Call.KeepsInodes, leads_iff hpath, wf.of.inodeAddr hlt.le, wf.of.dataMapAddr]
  rcases hends with ⟨hzero, hfull, hrun⟩ | ⟨hroom, hgap, f, hrun⟩ |
    ⟨hgap, img', hrun, hof, hcases⟩
  · rw [Call.leaves_iff hrun]
    exact iff_of_true hbal (.inl ⟨hzero, hfull⟩)
  · exact iff_of_false (Call.not_leaves hrun) (not_or.mpr ⟨hroom, hgap⟩)
  · rw [Call.leaves_iff hrun, hof.inodesBalanced_iff]
    refine iff_of_true ?_ (.inr hgap)
    rcases hcases with ⟨_, htally⟩ | ⟨_, k, _, htally⟩
    · rw [htally, Layout.tally_freeInodes, hsum]
    · rw [htally]
      dsimp only
      rw [Layout.tally_freeInodes, hsum]

theorem truncate_keepsInodes {size : Nat} (hc : (Call.truncate t size).Allowed img) :
    (Call.truncate t size).Leaves img InodesBalanced ↔
      (Call.truncate t size).KeepsInodes img := by
  obtain ⟨i, nd, hi, hnd, _⟩ := IsFile.node wf.hold wf.closed t.component t.length_lt hc.1
  obtain ⟨hsum, hle⟩ := wf.tally_inodeBalance hbal
  have hlt := wf.closed.inode_lt i nd hnd
  have hcount := (wf.hold.nodeAt i nd hnd).count
  have hext : extentCount img (L.recordAt i) ≠ 0 ↔ nd.extents ≠ [] := by
    rw [hcount, ne_eq, ne_eq, ← List.length_eq_zero_iff]
    omega
  rw [Call.KeepsInodes, leads_iff (pathInode_target wf hi), wf.of.inodeAddr hlt.le,
    (wf.hold.nodeAt i nd hnd).size, hext, wf.of.inodeMapAddr]
  by_cases hsize : size = nd.size
  · obtain ⟨img', hrun, hof, _, _, hfree, hiff⟩ := wf.truncate_same_tally hi hnd hsize
    have hrun' : (Call.truncate t size).run img = .ok (0, img') := hrun
    have hused : freeInodesCount img + (L.tally img').usedInodes = L.inodes ↔
        (L.tally img').usedInodes = (L.tally img).usedInodes := by omega
    rw [Call.leaves_iff hrun', hof.inodesBalanced_iff, hfree, hused, hiff]
    simp [hsize]
  · obtain ⟨img', hrun, hof, _, _, hfree, hiff⟩ := wf.truncate_other_tally hi hnd hsize
    have hrun' : (Call.truncate t size).run img = .ok (0, img') := hrun
    have hused : freeInodesCount img + (L.tally img').usedInodes = L.inodes ↔
        (L.tally img').usedInodes = (L.tally img).usedInodes := by omega
    rw [Call.leaves_iff hrun', hof.inodesBalanced_iff, hfree, hused, hiff]
    simp [hsize]

end Balanced

/-- A call that finds the parent in its path keeps the equation exactly if it meets the
condition. -/
theorem inodes_accounting (wf : WellFormed L img nodes) (hbal : InodesBalanced img)
    (hc : c.Allowed img) :
    (c.FindsParent img ∧ c.KeepsInodes img → c.Leaves img InodesBalanced) ∧
      (c.FindsParent img → c.Leaves img InodesBalanced → c.KeepsInodes img) := by
  have hiff : c.FindsParent img → (c.Leaves img InodesBalanced ↔ c.KeepsInodes img) := by
    intro hfinds
    cases c with
    | mkdir t mode stale => exact wf.mkdir_keepsInodes hbal hc hfinds
    | create t mode stale => exact wf.create_keepsInodes hbal hc hfinds
    | rmdir t stale => exact wf.rmdir_keepsInodes hbal hc hfinds
    | unlink t stale => exact wf.unlink_keepsInodes hbal hc hfinds
    | write t buf offset => exact wf.write_keepsInodes hbal hc
    | truncate t size => exact wf.truncate_keepsInodes hbal hc
  exact ⟨fun h => (hiff h.1).mpr h.2, fun h => (hiff h).mp⟩

/-- `a1fs_create` of the file `"/f"` with one free inode in the counter. -/
theorem inodes_accounting_two :
    ((Call.create fileTarget 0o100644 fun _ => 0).FindsParent (balancedImage 2) ∧
        (Call.create fileTarget 0o100644 fun _ => 0).KeepsInodes (balancedImage 2) →
      (Call.create fileTarget 0o100644 fun _ => 0).Leaves (balancedImage 2) InodesBalanced) ∧
    ((Call.create fileTarget 0o100644 fun _ => 0).FindsParent (balancedImage 2) →
      (Call.create fileTarget 0o100644 fun _ => 0).Leaves (balancedImage 2) InodesBalanced →
        (Call.create fileTarget 0o100644 fun _ => 0).KeepsInodes (balancedImage 2)) :=
  inodes_accounting (balancedImage_wellFormed (by decide) (by decide))
    (balancedImage_inodes (by decide) (by decide)).1
    (fresh_allows_create (balancedImage_wellFormed (by decide) (by decide)) (by decide) (by decide))

/-- The refused call has taken the free inode from the counter. -/
theorem create_unbalances_inodes :
    ¬ ∀ (L : Layout) (img : Image) (nodes : Nodes) (c : Call), WellFormed L img nodes →
      InodesBalanced img → c.Allowed img → c.Leaves img InodesBalanced := by
  intro hclaim
  have hwf := balancedImage_wellFormed (n := 2) (by decide) (by decide)
  obtain ⟨hbal, hcount⟩ := balancedImage_inodes (n := 2) (by decide) (by decide)
  obtain ⟨img, himg⟩ : ∃ img, balancedImage 2 = img := ⟨_, rfl⟩
  rw [himg] at hwf hbal hcount
  clear himg
  have hallowed : (Call.create fileTarget 0o100644 fun _ => 0).Allowed img :=
    fresh_allows_create hwf (by decide) (by decide)
  have hrefused : uint32 (freeInodesCount img - 1) = 0 := by
    rw [hcount]
    rfl
  have hrun : (Call.create fileTarget 0o100644 fun _ => 0).run img =
      .ok (-enomem, setFreeInodesCount img (freeInodesCount img - 1)) :=
    create_refused (by decide) (.inl hrefused)
  have hleaves := hclaim _ _ _ _ hwf hbal hallowed
  rw [Call.leaves_iff hrun, hwf.of.setFreeInodesCount.inodesBalanced_iff,
    Layout.tally_setFreeInodesCount] at hleaves
  have hsum := hwf.of.inodesBalanced_iff.mp hbal
  rw [Layout.tally_freeInodes] at hsum
  dsimp only at hleaves
  rw [hcount] at hleaves hsum
  rw [← hsum] at hleaves
  have hzero : uint32 (((2 - 1 : Nat) : Int) - 1) = 0 := rfl
  rw [hzero] at hleaves
  omega

end WellFormed

end UoftOs.FileSystem
