import UoftOs.FileSystem.Accounting
import UoftOs.FileSystem.Fresh

/-!
# Failed calls

Every negative return of the calls stands before their first store, except for one:
`a1fs_create` decrements `free_inodes_count` before it checks the counters.
-/

namespace UoftOs.FileSystem

open Lib.ByteMemory

/-- A negative return leaves the image as it was. -/
def Call.FailsClean (img : Image) (c : Call) : Prop :=
  ∀ r img', c.run img = .ok (r, img') → r < 0 → img' = img

/-- An `a1fs_create` that finds no free inode or block in the counters. -/
def Call.RefusedCreate (img : Image) : Call → Prop
  | .create .. => uint32 (freeInodesCount img - 1) = 0 ∨ freeBlocksCount img = 0
  | _ => False

variable {img img' : Image} {t : Target} {mode size offset : Nat} {stale : Nat → UInt8}
  {buf : List UInt8} {c : Call} {path : Path} {r : Int}

theorem mkdir_failsClean (h : a1fsMkdir img path mode stale = .ok (r, img')) (hr : r < 0) :
    img' = img := by
  rw [a1fsMkdir] at h
  by_cases hfree : freeInodesCount img = 0 ∨ freeBlocksCount img = 0
  · rw [if_pos hfree] at h
    cases h
    rfl
  · rw [if_neg hfree] at h
    obtain ⟨parent, _, hlink⟩ := bind_eq_ok.mp h
    cases hlink
    exact absurd hr (lt_irrefl 0)

theorem create_failsClean (h : a1fsCreate img path mode stale = .ok (r, img')) (hr : r < 0) :
    uint32 (freeInodesCount img - 1) = 0 ∨ freeBlocksCount img = 0 := by
  rw [a1fsCreate] at h
  by_cases hreg : sIsReg mode
  · rw [if_pos hreg] at h
    simp only [freeInodesCount_setFreeInodesCount, freeBlocksCount_setFreeInodesCount] at h
    by_contra hfree
    rw [if_neg hfree] at h
    obtain ⟨parent, _, hlink⟩ := bind_eq_ok.mp h
    cases hlink
    exact absurd hr (lt_irrefl 0)
  · rw [if_neg hreg] at h
    cases h

theorem rmdir_failsClean (h : a1fsRmdir img path stale = .ok (r, img')) (hr : r < 0) :
    img' = img := by
  rw [a1fsRmdir] at h
  by_cases hroot : path = [slash]
  · rw [if_pos hroot] at h
    cases h
  · rw [if_neg hroot] at h
    obtain ⟨i, _, hrest⟩ := bind_eq_ok.mp h
    simp only at hrest
    by_cases hlinks : inodeLinks img (inodeAddr img i) ≠ 2
    · rw [if_pos hlinks] at hrest
      cases hrest
      rfl
    · rw [if_neg hlinks] at hrest
      obtain ⟨parent, _, hremove⟩ := bind_eq_ok.mp hrest
      obtain ⟨removed, _, hlast⟩ := bind_eq_ok.mp hremove
      cases hlast
      exact absurd hr (lt_irrefl 0)

theorem unlink_failsClean (h : a1fsUnlink img path stale = .ok (r, img')) : r = 0 := by
  rw [a1fsUnlink] at h
  obtain ⟨i, _, hrest⟩ := bind_eq_ok.mp h
  obtain ⟨parent, _, hremove⟩ := bind_eq_ok.mp hrest
  obtain ⟨removed, _, hlast⟩ := bind_eq_ok.mp hremove
  cases hlast
  rfl

theorem write_failsClean (hlen : buf.length < 2147483648)
    (h : a1fsWrite img path buf offset = .ok (r, img')) (hr : r < 0) : img' = img := by
  have hnonneg : 0 ≤ int32 buf.length := by
    rw [int32_of_bounds (by omega) (by omega)]
    omega
  rw [a1fsWrite] at h
  obtain ⟨i, _, hrest⟩ := bind_eq_ok.mp h
  simp only at hrest
  by_cases hcount : extentCount img (inodeAddr img i) = 0
  · rw [if_pos hcount] at hrest
    by_cases hfull : findNextBit img (dataMapAddr img) = -1
    · rw [if_pos hfull] at hrest
      cases hrest
      rfl
    · rw [if_neg hfull] at hrest
      obtain ⟨_, _, heq⟩ := map_eq_ok.mp hrest
      rw [Prod.mk.injEq] at heq
      omega
  · rw [if_neg hcount] at hrest
    obtain ⟨_, _, heq⟩ := map_eq_ok.mp hrest
    rw [Prod.mk.injEq] at heq
    omega

theorem truncate_failsClean (h : a1fsTruncate img path size = .ok (r, img')) : r = 0 := by
  rw [a1fsTruncate] at h
  obtain ⟨i, _, hrest⟩ := bind_eq_ok.mp h
  cases hrest
  rfl

/-- A failed call changes nothing unless it is a refused `a1fs_create`. -/
theorem failed_calls_clean_iff (hc : c.Allowed img) : c.FailsClean img ↔ ¬ c.RefusedCreate img := by
  cases c with
  | mkdir t mode stale =>
      exact iff_of_true (fun r img' h hr => mkdir_failsClean h hr) id
  | create t mode stale =>
      constructor
      · intro hclean hrefused
        have hrun : (Call.create t mode stale).run img =
            .ok (-enomem, setFreeInodesCount img (freeInodesCount img - 1)) :=
          create_refused hc.2.2.1 hrefused
        have hsame := congrArg freeInodesCount (hclean _ _ hrun (by decide))
        have hlt : freeInodesCount img < 4294967296 := load_lt
        rw [freeInodesCount_setFreeInodesCount] at hsame
        unfold uint32 at hsame
        omega
      · intro hfree r img' h hr
        exact absurd (create_failsClean h hr) hfree
  | rmdir t stale => exact iff_of_true (fun r img' h hr => rmdir_failsClean h hr) id
  | unlink t stale =>
      refine iff_of_true (fun r img' h hr => ?_) id
      rw [unlink_failsClean h] at hr
      exact absurd hr (lt_irrefl 0)
  | write t buf offset =>
      have hlen : buf.length < 2147483648 := by
        have hfits := hc.2.1
        omega
      exact iff_of_true (fun r img' h hr => write_failsClean hlen h hr) id
  | truncate t size =>
      refine iff_of_true (fun r img' h hr => ?_) id
      rw [truncate_failsClean h] at hr
      exact absurd hr (lt_irrefl 0)

/-- The fresh file system with one inode. -/
def oneInodeImage : Image := (mkfs (fun _ => 0) 1048576 1).2

theorem oneInodeImage_wellFormed :
    WellFormed (formatLayout 1048576 1 (by decide) (by decide)) oneInodeImage freshNodes :=
  mkfs_wellFormed (by decide) (by decide) (by decide) fun _ _ _ => rfl

theorem failed_calls_clean_iff_one :
    (Call.create fileTarget 0o100644 fun _ => 0).FailsClean oneInodeImage ↔
      ¬ (Call.create fileTarget 0o100644 fun _ => 0).RefusedCreate oneInodeImage :=
  failed_calls_clean_iff
    (fresh_allows_create oneInodeImage_wellFormed (by decide) (by decide))

/-- The one free inode of the counter is gone after the refusal. -/
theorem refused_create_drops_inode :
    ¬ ∀ (L : Layout) (img : Image) (nodes : Nodes) (c : Call),
      WellFormed L img nodes → c.Allowed img → c.FailsClean img := by
  intro hclaim
  have hallowed : (Call.create fileTarget 0o100644 fun _ => 0).Allowed oneInodeImage :=
    fresh_allows_create oneInodeImage_wellFormed (by decide) (by decide)
  have hclean := hclaim _ _ _ _ oneInodeImage_wellFormed hallowed
  have hcount : freeInodesCount oneInodeImage = 1 := mkfs_freeInodesCount (by decide) (by decide)
  have hrefused : uint32 (freeInodesCount oneInodeImage - 1) = 0 := by
    rw [hcount]
    rfl
  have hrun : (Call.create fileTarget 0o100644 fun _ => 0).run oneInodeImage =
      .ok (-enomem, setFreeInodesCount oneInodeImage (freeInodesCount oneInodeImage - 1)) :=
    create_refused (by decide) (.inl hrefused)
  have hsame := congrArg freeInodesCount (hclean _ _ hrun (by decide))
  rw [freeInodesCount_setFreeInodesCount, hcount] at hsame
  exact absurd hsame (by decide)

end UoftOs.FileSystem
