import UoftOs.FileSystem.Ownership

/-!
# Writes of one file and the others

A write or a truncation of a file stores in its record, its first extent and one
block. When no other inode has this block, the call leaves the other inodes and their
bits alone.
-/

namespace UoftOs.FileSystem

open Lib.ByteMemory Lib.NamedTree Lib.Transition

/-- No other inode in use has the block behind the file. -/
def FreeBehind (img : Image) (i : Int) : Prop :=
  ∀ j ∈ liveInodes img, (j : Int) ≠ i →
    behindLastExtent img (inodeAddr img i) (extentAddr img i) ∉ blocksOf img j

/-- The call gives the file its first block, or no other inode has the block behind it.
A truncation to the size of the file stores in no block. -/
def Call.Isolated (img : Image) : Call → Prop
  | .write t _ _ =>
      Leads img t.path fun i => extentCount img (inodeAddr img i) = 0 ∨ FreeBehind img i
  | .truncate t size =>
      Leads img t.path fun i => size = inodeSize img (inodeAddr img i) ∨ FreeBehind img i
  | _ => False

/-- The path of the file that the call changes. -/
def Call.filePath : Call → Path
  | .mkdir t _ _ | .create t _ _ | .rmdir t _ | .unlink t _ | .write t _ _ | .truncate t _ => t.path

/-- What the other inodes keep, and the bits that inode `i` may change. -/
structure KeepsOthers (img' img : Image) (i : Nat) : Prop where
  data : ∀ j ∈ liveInodes img, j ≠ i → ∀ b ∈ blocksOf img j,
    AgreeOn img' img (dataAddr img b) (dataAddr img b + 4096)
  records : ∀ j < inodesCount img, j ≠ i →
    AgreeOn img' img (inodeAddr img j) (inodeAddr img j + 64)
  extents : ∀ j < inodesCount img, j ≠ i →
    AgreeOn img' img (extentAddr img j) (extentAddr img j + 4096)
  inodeBits : ∀ k < inodeBits img,
    bitSet img' (inodeMapAddr img) k = bitSet img (inodeMapAddr img) k
  dataBits : ∀ b < 65536, bitSet img' (dataMapAddr img) b ≠ bitSet img (dataMapAddr img) b →
    ((b : Int) ∈ blocksOf img' i ↔ (b : Int) ∉ blocksOf img i)

variable {L : Layout} {img img' img₁ img₂ : Image} {nodes : Nodes} {nd new : Node} {i j b size n : Nat}
  {calls : List Call} {c : Call} {r : Int}

namespace Consistent

/-- Stores in the record of a file, in its first extent and in a block that no other
inode has. -/
theorem keepsOthers (h : Consistent L img nodes) (hnd : nodes i = some nd)
    (h' : Consistent L img' (nodes.updated i new)) (hsub : nd.extents ⊆ new.extents)
    (hkeeps : ∀ x, 4096 * (L.inodeTable : Int) ≤ x →
      (x < L.recordAt i ∨ L.recordAt i + 64 ≤ x) → (x < L.extentAt i ∨ L.extentAt i + 8 ≤ x) →
      (x < L.blockAt b ∨ L.blockAt b + 4096 ≤ x) → img' x = img x)
    (hfree : ∀ j nd', j ≠ i → nodes j = some nd' → (b, 1) ∉ nd'.extents) :
    KeepsOthers img' img i := by
  have hlt := (h.tree.small i nd hnd).inode_lt
  have hrecord := L.recordAt_lt hlt
  have hextent := L.extentAt_lt hlt
  have hdata := L.blockAt_ge_data b
  have htable := L.extents_lt
  have hroom := L.extentBlocks
  have hext : L.extentAt i = 4096 * (L.extents + i) := rfl
  constructor
  case data =>
      intro j hj hji c hc x hlo hhi
      obtain ⟨nd', hnd'⟩ := h.mem_liveInodes.mp hj
      rw [h.blocksOf_eq hnd', List.mem_map] at hc
      obtain ⟨⟨s, m⟩, he, rfl⟩ := hc
      obtain ⟨_, rfl, _, hs⟩ := (h.tree.small j nd' hnd').mem_extents he
      have hlast := h.tree.last_lt
      rw [h.of.dataAddr (show L.data + s < 524288 by omega)] at hlo hhi
      have hsdata := L.blockAt_ge_data s
      have hsb : s ≠ b := by
        rintro rfl
        exact hfree j nd' hji hnd' he
      have hblocks := L.blockAt_apart hsb
      exact hkeeps x (by omega) (by omega) (by omega) (by omega)
  case records =>
      intro j hj hji x hlo hhi
      rw [h.of.inodesCount] at hj
      rw [h.of.inodeAddr hj.le] at hlo hhi
      have hjrecord := L.recordAt_lt hj
      have hge := L.recordAt_ge j
      have hrecords := L.recordAt_apart hji
      exact hkeeps x (by omega) (by omega) (by omega) (by omega)
  case extents =>
      intro j hj hji x hlo hhi
      rw [h.of.inodesCount] at hj
      rw [h.of.extentAddr hj.le] at hlo hhi
      have hjextent := L.extentAt_lt hj
      have hjext : L.extentAt j = 4096 * (L.extents + j) := rfl
      have hexts := L.extentAt_apart hji
      exact hkeeps x (by omega) (by omega) (by omega) (by omega)
  case inodeBits =>
      intro k hk
      rw [h.inodeBits_eq] at hk
      rw [h.of.inodeMapAddr, h'.inodeBits k hk, h.inodeBits k hk]
      by_cases hki : k = i
      · rw [hki, Nodes.updated_self, hnd]
        rfl
      · rw [Nodes.updated_other hki]
  case dataBits =>
      intro c hc hne
      rw [h.of.dataMapAddr, ne_eq, Bool.eq_iff_iff, h'.dataBits c hc, h.dataBits c hc,
        Nodes.extents_updated hnd hsub] at hne
      rw [h'.mem_blocksOf Nodes.updated_self, h.mem_blocksOf hnd]
      have hnone : ¬ ∃ k nd', nodes k = some nd' ∧ (c, 1) ∈ nd'.extents := fun hex =>
        hne (iff_of_true (.inl hex) hex)
      have hnew : (c, 1) ∈ new.extents := by
        by_contra hnot
        exact hne (by simp [hnone, hnot])
      exact iff_of_true hnew fun he => hnone ⟨i, nd, hnd, he⟩

theorem freeBehind_one (h : Consistent L img nodes) (hnd : nodes i = some nd)
    (hext : nd.extents = [(b, 1)]) (hfree : FreeBehind img i) :
    ∀ j nd', j ≠ i → nodes j = some nd' → (b + 1, 1) ∉ nd'.extents := by
  intro j nd' hji hnd' he
  refine hfree j (h.mem_liveInodes.mpr ⟨nd', hnd'⟩) (by omega) ?_
  rw [h.behind_one hnd hext]
  exact (h.mem_blocksOf hnd').mpr he

end Consistent

/-- Over runs of safe calls a write or truncation whose block no other inode has leaves
the other inodes alone. -/
theorem writes_isolated (hfresh : FreshImage img size n) (run : SafeRun img calls img₁)
    (hc : c.Allowed img₁) (hsafe : c.Safe img₁) (hisolated : c.Isolated img₁)
    (hpath : pathInode img₁ c.filePath = .ok (i : Int)) (hrun : c.run img₁ = .ok (r, img₂)) :
    KeepsOthers img₂ img₁ i := by
  obtain ⟨nodes, h⟩ := run.consistent hfresh
  have hinode : ∀ {t : Target} {j : Nat}, pathInode img₁ t.path = .ok (i : Int) →
      nodes.resolve (t.dirs ++ [t.name]) = (j : Int) → i = j := by
    intro t j hi hj
    have htarget := WellFormed.pathInode_target h.wellFormed hj
    rw [hi] at htarget
    exact Int.ofNat_inj.mp (Except.ok.inj htarget)
  cases c with
  | write t buf offset =>
      obtain ⟨j, nd, b, m, img', hj, hnd, hfile, hok, hstored, _, hcases⟩ := h.write_safe hc hsafe
      obtain rfl := hinode hpath hj
      cases hok.symm.trans hrun
      have hlt := (h.tree.small i nd hnd).inode_lt
      have hfile' : pathInode img₁ t.path = .ok (i : Int) := hpath
      rcases hcases with ⟨hext, hleast, hb8, _, rfl, h'⟩ | ⟨c, hext, rfl, _, hsame, h'⟩
      · refine h.keepsOthers (b := b) hnd h' (by rw [hext]; exact List.nil_subset _) ?_ ?_
        · intro x hx hxrecord hxextent hxblock
          rw [hstored.keeps x (by omega) hxblock,
            giveFirstBlock_apply (by omega) hx (by omega) hxextent]
        · exact fun j nd' _ hnd' => h.unused_of_clear hb8 hleast.2.1 hnd'
      · have hat := h.hold.nodeAt i nd hnd
        rw [Call.Isolated, leads_iff hfile', h.of.inodeAddr hlt.le, hat.count, hext] at hisolated
        have hfree := hisolated.resolve_left (by simp)
        refine h.keepsOthers hnd h' (fun _ he => he) ?_ (h.freeBehind_one hnd hext hfree)
        rw [hsame] at hstored
        exact fun x _ hxrecord _ hxblock => hstored.keeps x (by omega) hxblock
  | truncate t newSize =>
      obtain ⟨j, nd, b, img', hj, hnd, hfile, hext, hok, hcases⟩ := h.truncate_safe hc hsafe
      obtain rfl := hinode hpath hj
      cases hok.symm.trans hrun
      have hfile' : pathInode img₁ t.path = .ok (i : Int) := hpath
      have hlt := (h.tree.small i nd hnd).inode_lt
      rcases hcases with ⟨hne, _, _, _, hstored, h'⟩ | ⟨_, _, h', hkeeps⟩
      · have hat := h.hold.nodeAt i nd hnd
        rw [Call.Isolated, leads_iff hfile', h.of.inodeAddr hlt.le, hat.size] at hisolated
        have hfree := hisolated.resolve_left hne
        refine h.keepsOthers hnd h' (fun _ he => he) ?_ (h.freeBehind_one hnd hext hfree)
        intro x hx hxrecord _ hxblock
        rw [hstored.keeps x (by omega) hxblock, chargedBlocks_apply hx]
      · refine h.keepsOthers
          (b := (formatLayout size n hfresh.inodes_pos hfresh.fits.1).blocks) hnd h' (fun _ he => he) ?_ ?_
        · intro x hx hxrecord hxextent _
          rw [hkeeps x hxrecord hxextent, chargedBlocks_apply hx]
        · intro j nd' _ hnd' he
          have hmem := (h.tree.small j nd' hnd').mem_extents he
          omega
  | mkdir t mode stale => exact absurd hisolated id
  | create t mode stale => exact absurd hisolated id
  | rmdir t stale => exact absurd hisolated id
  | unlink t stale => exact absurd hisolated id

theorem writes_isolated_file : ∃ img₁ img₂ r, SafeRun smallImage [createFile] img₁ ∧
    (Call.write fileTarget [7] 0).run img₁ = .ok (r, img₂) ∧ KeepsOthers img₂ img₁ 1 := by
  obtain ⟨img₁, _, run, h⟩ := createFile_run
  obtain ⟨hallowed, hsafe⟩ : (Call.write fileTarget [7] 0).Allowed img₁ ∧
      (Call.write fileTarget [7] 0).Safe img₁ := h.fileNodes_write (by decide)
  have hpath := WellFormed.pathInode_target h.wellFormed fileNodes_resolve
  have hcount : extentCount img₁ (smallLayout.recordAt 1) = 0 :=
    (h.hold.nodeAt 1 _ (show fileNodes 1 = some (Node.emptyFile 0o100644) from rfl)).count
  have hisolated : (Call.write fileTarget [7] 0).Isolated img₁ := by
    refine ⟨_, hpath, .inl ?_⟩
    rw [h.of.inodeAddr (show 1 ≤ smallLayout.inodes by decide), hcount]
  obtain ⟨_, _, _, _, img₂, _, _, _, hrun, _⟩ := h.write_safe hallowed hsafe
  exact ⟨img₁, img₂, _, run, hrun,
    writes_isolated smallImage_fresh run hallowed hsafe hisolated hpath hrun⟩

/-- The truncation of an empty file sets a bit of the inode bitmap. -/
theorem truncate_sets_inode_bit :
    ¬ ∀ (img : Image) (size n : Nat) (calls : List Call) (img₁ img₂ : Image) (t : Target)
      (newSize i : Nat) (r : Int), FreshImage img size n → Run Performs img calls img₁ →
      (Call.truncate t newSize).Allowed img₁ → pathInode img₁ t.path = .ok (i : Int) →
      (Call.truncate t newSize).run img₁ = .ok (r, img₂) → KeepsOthers img₂ img₁ i := by
  intro hclaim
  obtain ⟨img₁, img₂, run, h, ⟨hallowed, r, hrun⟩, _, _, hclear, hset, _⟩ := truncateFile_run
  have hpath := WellFormed.pathInode_target h.wellFormed fileNodes_resolve
  have hkeeps := hclaim _ _ _ _ _ _ _ _ _ _ smallImage_fresh run.unguard hallowed hpath hrun
  have hbit := hkeeps.inodeBits 2 (by rw [h.inodeBits_eq]; decide)
  rw [h.of.inodeMapAddr, hclear, hset] at hbit
  cases hbit

end UoftOs.FileSystem
