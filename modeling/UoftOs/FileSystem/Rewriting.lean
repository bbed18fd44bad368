import UoftOs.FileSystem.Contents
import UoftOs.FileSystem.Growing

/-!
# Files with other contents in a consistent image

A call that stores in the record of a file, in its first extent and in one data block
keeps the image consistent when no directory has the block. `a1fs_write` takes a block
for a file without extents, and otherwise stores in the block behind the file.
-/

namespace UoftOs.FileSystem

open Lib.ByteMemory Lib.NamedTree

variable {L : Layout} {img img' : Image} {nodes : Nodes} {nd new : Node} {i j k b n size : Nat}
  {buf : List UInt8} {offset : Nat}

/-- The extents of the nodes when a file gets more of them. -/
theorem Nodes.extents_updated {e : Nat × Nat} (hnd : nodes i = some nd)
    (hsub : nd.extents ⊆ new.extents) :
    (∃ k nd', nodes.updated i new k = some nd' ∧ e ∈ nd'.extents) ↔
      (∃ k nd', nodes k = some nd' ∧ e ∈ nd'.extents) ∨ e ∈ new.extents := by
  constructor
  · rintro ⟨k, nd', hk, he⟩
    rcases updated_cases hk with ⟨_, rfl⟩ | ⟨_, hold⟩
    · exact .inr he
    · exact .inl ⟨k, nd', hold, he⟩
  · rintro (⟨k, nd', hk, he⟩ | he)
    · by_cases hki : k = i
      · subst hki
        rw [hnd] at hk
        cases hk
        exact ⟨k, new, updated_self, hsub he⟩
      · exact ⟨k, nd', by rw [updated_other hki, hk], he⟩
    · exact ⟨i, new, updated_self, he⟩

theorem Nodes.updated_updated : (nodes.updated i nd).updated i new = nodes.updated i new := by
  funext k
  by_cases hk : k = i
  · rw [hk, updated_self, updated_self]
  · rw [updated_other hk, updated_other hk, updated_other hk]

namespace Consistent

/-- A file with other contents, whose bits are set. -/
theorem rewritten (h : Consistent L img nodes) (hnd : nodes i = some nd)
    (hfile : ¬ sIsDir nd.mode) (hmode : new.mode = nd.mode) (hsmall : new.Small L i)
    (hsub : nd.extents ⊆ new.extents)
    (hapart : ∀ j nd' e, j ≠ i → nodes j = some nd' → e ∈ new.extents → e ∉ nd'.extents)
    (hdirs : ∀ j nd', nodes j = some nd' → sIsDir nd'.mode → (b, 1) ∉ nd'.extents)
    (hat : new.At L img' i) (hof : L.Of img')
    (hinodes : ∀ k < L.inodeBitCount, bitSet img' L.inodeMapAt k = bitSet img L.inodeMapAt k)
    (hdata : ∀ c < 65536, bitSet img' L.dataMapAt c = true ↔
      bitSet img L.dataMapAt c = true ∨ (c, 1) ∈ new.extents)
    (hkeeps : ∀ x, 4096 * (L.inodeTable : Int) ≤ x →
      (x < L.recordAt i ∨ L.recordAt i + 64 ≤ x) → (x < L.extentAt i ∨ L.extentAt i + 8 ≤ x) →
      (x < L.blockAt b ∨ L.blockAt b + 4096 ≤ x) → img' x = img x) :
    Consistent L img' (nodes.updated i new) := by
  refine ⟨h.tree.updated hnd hfile hmode hsmall hapart, ⟨hof, fun j nd' hnd' => ?_⟩, ?_, ?_⟩
  · rcases Nodes.updated_cases hnd' with ⟨rfl, rfl⟩ | ⟨hji, hsame⟩
    · exact hat
    · have hi := (h.tree.small i nd hnd).inode_lt
      have hj := (h.tree.small j nd' hsame).inode_lt
      have hlen := h.tree.length_entries hsame
      have hbdata := L.blockAt_ge_data b
      have hrecord := L.recordAt_lt hi
      have hjrecord := L.recordAt_lt hj
      have hjge := L.recordAt_ge j
      have hextent := L.extentAt_lt hi
      have hjextent := L.extentAt_lt hj
      have htable := L.extents_lt
      have hroom := L.extentBlocks
      have hext : L.extentAt i = 4096 * (L.extents + i) := rfl
      have hjext : L.extentAt j = 4096 * (L.extents + j) := rfl
      have hrecords := L.recordAt_apart hji
      have hexts := L.extentAt_apart hji
      refine h.tree.at_congr hsame (h.hold.nodeAt j nd' hsame) ?_ ?_ ?_
      · intro x hlo hhi
        exact hkeeps x (by omega) (by omega) (by omega) (by omega)
      · intro x hlo hhi
        exact hkeeps x (by omega) (by omega) (by omega) (by omega)
      · intro hdir c hc x hlo hhi
        have hcdata := L.blockAt_ge_data c
        have hcb : c ≠ b := by
          rintro rfl
          exact hdirs j nd' hsame hdir (hc ▸ List.mem_singleton_self _)
        have hblocks := L.blockAt_apart hcb
        exact hkeeps x (by omega) (by omega) (by omega) (by omega)
  · intro k hk
    rw [hinodes k hk, h.inodeBits k hk]
    by_cases hki : k = i
    · rw [hki, Nodes.updated_self, hnd]
      rfl
    · rw [Nodes.updated_other hki]
  · intro c hc
    rw [hdata c hc, h.dataBits c hc, Nodes.extents_updated hnd hsub]

end Consistent

/-! ## Stores in one block -/

/-- A node without entries stands in an image that has its record but for the size and the
extent count. -/
theorem Node.At.reshaped {extents : List (Nat × Nat)} (hat : nd.At L img i)
    (hentries : nd.entries = [])
    (hkeeps : ∀ x, L.recordAt i ≤ x → x < L.recordAt i + 64 →
      (x < L.recordAt i + 8 ∨ L.recordAt i + 16 ≤ x) →
      (x < L.recordAt i + 36 ∨ L.recordAt i + 40 ≤ x) → img' x = img x)
    (hsize : inodeSize img' (L.recordAt i) = n)
    (hcount : extentCount img' (L.recordAt i) = extents.length)
    (hextents : ∀ k (hk : k < extents.length), extentStart img' (L.extentAt i) k = extents[k].1 ∧
      extentLength img' (L.extentAt i) k = extents[k].2) :
    ({ nd with size := n, extents := extents } : Node).At L img' i := by
  constructor
  case mode =>
      rw [← hat.mode]
      exact u32_congr fun x hlo hhi => hkeeps x (by omega) (by omega) (by omega) (by omega)
  case links =>
      rw [← hat.links]
      exact u32_congr fun x hlo hhi => hkeeps x (by omega) (by omega) (by omega) (by omega)
  case size => exact hsize
  case number =>
      rw [← hat.number]
      exact i32_congr fun x hlo hhi => hkeeps x (by omega) (by omega) (by omega) (by omega)
  case count => exact hcount
  case extents => exact hextents
  case slots =>
      intro k hk
      have hlt : k < nd.entries.length := hk
      rw [hentries] at hlt
      exact absurd hlt (Nat.not_lt_zero k)

/-- Stores in a data block and in the size of a record. -/
structure BlockStored (L : Layout) (img' img : Image) (i b n : Nat) : Prop where
  keeps : ∀ x, (x < L.recordAt i + 8 ∨ L.recordAt i + 16 ≤ x) →
    (x < L.blockAt b ∨ L.blockAt b + 4096 ≤ x) → img' x = img x
  size : inodeSize img' (L.recordAt i) = n

namespace BlockStored

variable (h : BlockStored L img' img i b n)
include h

theorem head : L.SameHead img' img := by
  have hge := L.recordAt_ge i
  have hdata := L.blockAt_ge b
  exact fun x _ hhi => h.keeps x (by omega) (by omega)

/-- The file stands in the image with the new size. -/
theorem nodeAt (hi : i < L.inodes) (hat : nd.At L img i) (hentries : nd.entries = [])
    (hone : nd.extents.length ≤ 1) : ({ nd with size := n } : Node).At L img' i := by
  have hrecord := L.recordAt_lt hi
  have hdata := L.blockAt_ge_data b
  have hextent := L.extentAt_lt hi
  have hroom := L.extentBlocks
  have hext : L.extentAt i = 4096 * (L.extents + i) := rfl
  have hregion : AgreeOn img' img (L.extentAt i) (L.extentAt i + 8) := fun x hlo _ =>
    h.keeps x (by omega) (by omega)
  have hcount : extentCount img' (L.recordAt i) = nd.extents.length := by
    rw [← hat.count]
    exact i32_congr fun x hlo _ => h.keeps x (by omega) (by omega)
  exact hat.reshaped hentries (fun x _ _ hx _ => h.keeps x hx (by omega)) h.size hcount
    fun k hk => hat.extents_congr (hregion.mono (le_refl _) (by omega)) hk

end BlockStored

/-- Stores in a block of no directory, and a size for which the file has its block. -/
theorem Consistent.stored (h : Consistent L img nodes) (hnd : nodes i = some nd)
    (hfile : ¬ sIsDir nd.mode) (hstored : BlockStored L img' img i b n)
    (hn : n ≤ 4096 * nd.extents.length)
    (hdirs : ∀ j nd', nodes j = some nd' → sIsDir nd'.mode → (b, 1) ∉ nd'.extents) :
    Consistent L img' (nodes.updated i { nd with size := n }) := by
  have hsmall := h.tree.small i nd hnd
  have hi := hsmall.inode_lt
  have hhead := hstored.head
  have hone : nd.extents.length ≤ 1 := by
    rcases hsmall.extents with hnil | ⟨c, hc, _⟩
    · simp [hnil]
    · simp [hc]
  refine h.rewritten hnd hfile rfl ⟨hi, hsmall.inode_small, hsmall.extents, hn, hsmall.file⟩
    (fun _ he => he) ?_ hdirs
    (hstored.nodeAt hi (h.hold.nodeAt i nd hnd) (hsmall.file hfile) hone) (hhead.of h.of)
    (fun k hk => hhead.inodeBit hk) ?_ ?_
  · intro j nd' e hji hnd' he he'
    exact hji (h.tree.apart j i nd' nd e hnd' hnd he' he)
  · intro c hc
    rw [hhead.dataBit hc, h.dataBits c hc]
    exact ⟨.inl, fun he => he.elim id fun he => ⟨i, nd, hnd, he⟩⟩
  · intro x _ hxrecord _ hxblock
    exact hstored.keeps x (by omega) hxblock

/-! ## A write within a block -/

/-- The size that `writeInto` stores. -/
def writtenSize (old offset length : Nat) : Nat :=
  if old < offset then old + length + offset else max old (offset + length)

/-- What a write leaves in the block `b`. -/
structure BlockWritten (L : Layout) (img' img : Image) (b old offset : Nat) (buf : List UInt8) :
    Prop where
  written : bytesAt img' (L.blockAt b + offset) buf.length = buf
  gap : ∀ x, L.blockAt b + old ≤ x → x < L.blockAt b + offset → img' x = 0
  rest : ∀ x, L.blockAt b ≤ x → (x < L.blockAt b + old ∨ L.blockAt b + offset ≤ x) →
    (x < L.blockAt b + offset ∨ L.blockAt b + offset + buf.length ≤ x) → img' x = img x

theorem int32_natCast (h : n < 2147483648) : int32 n = n :=
  int32_of_bounds (by omega) (by omega)

theorem setSize_apply {p v x : Int} (hx : x < p + 8 ∨ p + 16 ≤ x) : setSize img p v x = img x :=
  storeNat_apply_of_outside (by omega)

section Within

variable {old : Nat} (hold : old ≤ 4096) (hfits : offset + buf.length ≤ 4096)
include hold hfits

/-- The cases of a write within a block in terms of natural numbers. -/
theorem writeInto_small {p w : Int} (hsize : inodeSize img p = old) :
    (old < offset ∧ writeInto img p w buf offset =
      .ok (setSize (store (fill img (dataAddr img w + old) 0 (offset - old))
        (dataAddr (fill img (dataAddr img w + old) 0 (offset - old)) w + offset) buf) p
          (old + buf.length + offset : Nat))) ∨
    (offset ≤ old ∧ writeInto img p w buf offset =
      .ok (if old < offset + buf.length then
        setSize (store img (dataAddr img w + offset) buf) p (offset + buf.length : Nat)
        else store img (dataAddr img w + offset) buf)) := by
  have hold' : old < 2147483648 := lt_of_le_of_lt hold (by decide)
  have hsum : offset + buf.length < 2147483648 := lt_of_le_of_lt hfits (by decide)
  have hoff : offset < 2147483648 := lt_of_le_of_lt (Nat.le_add_right _ _) hsum
  have hint : int32 (inodeSize img p) = old := by
    rw [hsize]
    exact int32_natCast hold'
  clear hsize
  have hgap : old < offset → int32 ((offset : Int) - old) = (offset - old : Nat) := by
    intro hlt
    rw [← Int.natCast_sub hlt.le]
    exact int32_natCast (lt_of_le_of_lt (Nat.sub_le _ _) hoff)
  have hgapFits : GapFits img p offset := by
    intro hlt
    rw [hint] at hlt ⊢
    rw [hgap (by omega)]
    exact Int.natCast_nonneg _
  have hnew : int32 ((offset : Int) + buf.length) = (offset + buf.length : Nat) := by
    rw [← Int.natCast_add]
    exact int32_natCast hsum
  rcases writeInto_cases (w := w) hgapFits with ⟨hlt, heq⟩ | ⟨hge, heq⟩
  · rw [hint] at hlt heq
    have hlt' : old < offset := Int.ofNat_lt.mp hlt
    rw [hgap hlt', Int.toNat_natCast] at heq
    refine .inl ⟨hlt', ?_⟩
    rw [heq, Int.natCast_add, Int.natCast_add]
  · rw [hint] at hge heq
    refine .inr ⟨Int.ofNat_le.mp hge, ?_⟩
    have hiff : (old : Int) < offset + buf.length ↔ old < offset + buf.length := by omega
    simp only [heq, hnew, Int.natCast_add, hiff]

/-- `writeInto` in a block that it does not leave. -/
theorem writeInto_within (hof : L.Of img) (hi : i < L.inodes) (hb : L.data + b < 524288)
    (hsize : inodeSize img (L.recordAt i) = old) :
    ∃ img', writeInto img (L.recordAt i) (b : Int) buf offset = .ok img' ∧
      BlockStored L img' img i b (writtenSize old offset buf.length) ∧
      BlockWritten L img' img b old offset buf := by
  have hrecord := L.recordAt_lt hi
  have hdata := L.blockAt_ge_data b
  have hroom := L.extentBlocks
  have hcases := writeInto_small (w := b) hold hfits hsize
  rw [hof.dataAddr hb] at hcases
  have hkeep : ∀ m, AgreeOn m img (L.recordAt i) (L.recordAt i + 64) →
      inodeSize m (L.recordAt i) = old := fun m hm =>
    (u64_congr (hm.mono (by omega) (by omega))).trans hsize
  clear hsize
  rcases hcases with ⟨hlt, heq⟩ | ⟨hge, heq⟩
  · have hfill : ∀ x, (x < L.blockAt b + old ∨ L.blockAt b + offset ≤ x) →
        fill img (L.blockAt b + old) 0 (offset - old) x = img x := fun x hx =>
      fill_apply_of_outside (by omega)
    have hfilled : L.Of (fill img (L.blockAt b + old) 0 (offset - old)) :=
      hof.congr fun x _ hhi => hfill x (.inl (by have := L.head_pos; have := L.blockAt_ge b; omega))
    rw [hfilled.dataAddr hb] at heq
    refine ⟨_, heq, ⟨fun x hx hxblock => ?_, ?_⟩, ⟨?_, fun x hlo hhi => ?_,
      fun x hlo hxgap hxbuf => ?_⟩⟩
    · rw [setSize_apply (by omega), store_apply_of_outside (by omega), hfill x (by omega)]
    · rw [writtenSize, if_pos hlt]
      exact u64_set64_self.trans (uint64_natCast (by omega))
    · rw [bytesAt_congr fun x hlo _ => setSize_apply (by omega)]
      exact bytesAt_store_self
    · rw [setSize_apply (by omega), store_apply_of_outside (by omega)]
      exact fill_apply hlo (by omega)
    · rw [setSize_apply (by omega), store_apply_of_outside (by omega), hfill x (by omega)]
  · have hstored : ∀ x, (x < L.blockAt b + offset ∨ L.blockAt b + offset + buf.length ≤ x) →
        store img (L.blockAt b + offset) buf x = img x := fun x hx =>
      store_apply_of_outside (by omega)
    have hsame : inodeSize (store img (L.blockAt b + offset) buf) (L.recordAt i) = old :=
      hkeep _ fun x _ hhi => hstored x (by omega)
    have hbytes : bytesAt (store img (L.blockAt b + offset) buf) (L.blockAt b + offset)
        buf.length = buf := bytesAt_store_self
    generalize store img (L.blockAt b + offset) buf = img₁ at *
    rw [writtenSize, if_neg (by omega)]
    by_cases hgrow : old < offset + buf.length
    · rw [if_pos hgrow] at heq
      refine ⟨_, heq, ⟨fun x hx hxblock => ?_, ?_⟩, ⟨?_, fun x hlo hhi => by omega,
        fun x hlo _ hxbuf => ?_⟩⟩
      · rw [setSize_apply (by omega), hstored x (by omega)]
      · rw [Nat.max_eq_right hgrow.le]
        exact u64_set64_self.trans (uint64_natCast (by omega))
      · rw [bytesAt_congr fun x hlo _ => setSize_apply (by omega), hbytes]
      · rw [setSize_apply (by omega), hstored x hxbuf]
    · rw [if_neg hgrow] at heq
      refine ⟨_, heq, ⟨fun x _ hxblock => hstored x (by omega), ?_⟩, ⟨hbytes,
        fun x hlo hhi => by omega, fun x _ _ hxbuf => hstored x hxbuf⟩⟩
      rw [Nat.max_eq_left (by omega), hsame]

end Within

/-! ## The first block of a file -/

/-- Behind the head `giveFirstBlock` stores in the record and the first extent. -/
theorem giveFirstBlock_apply {x : Int} (hb : b < 65536) (hx : 4096 * (L.inodeTable : Int) ≤ x)
    (hrecord : x < L.recordAt i + 36 ∨ L.recordAt i + 40 ≤ x)
    (hextent : x < L.extentAt i ∨ L.extentAt i + 8 ≤ x) :
    giveFirstBlock img (L.recordAt i) (L.extentAt i) L.dataMapAt b x = img x := by
  have htable := L.head_pos
  have hcounted : ∀ m : Image, setExtentCount m (L.recordAt i) 1 x = m x := fun _ =>
    storeNat_apply_of_outside (by omega)
  have hextended : ∀ m : Image, setExtentLength (setExtentStart m (L.extentAt i) 0 b) (L.extentAt i)
      0 1 x = m x := fun _ => L.putExtent_apply hextent
  have hmarked : modify img L.dataMapAt b true x = img x := Layout.sameTail_modify_dataMap hb x hx
  unfold giveFirstBlock
  rw [setFreeBlocksCount_apply (by omega), hcounted, hextended, hmarked]

/-- A file without extents gets a free block. -/
theorem Consistent.gaveFirstBlock (h : Consistent L img nodes) (hnd : nodes i = some nd)
    (hfile : ¬ sIsDir nd.mode) (hext : nd.extents = []) (hb : b < 8 ∧ b < L.blocks)
    (hclear : bitSet img L.dataMapAt b = false) :
    Consistent L (giveFirstBlock img (L.recordAt i) (L.extentAt i) L.dataMapAt b)
      (nodes.updated i { nd with extents := [(b, 1)] }) := by
  have hsmall := h.tree.small i nd hnd
  have hi := hsmall.inode_lt
  have hat := h.hold.nodeAt i nd hnd
  have hunused : ∀ j nd', nodes j = some nd' → (b, 1) ∉ nd'.extents := fun _ _ hnd' =>
    h.unused_of_clear hb.1 hclear hnd'
  have hrecord := L.recordAt_lt hi
  have hge := L.recordAt_ge i
  have hextent := L.extentAt_lt hi
  have hroom := L.extentBlocks
  have hbits := L.bits_ge
  have htable := L.head_pos
  have hext' : L.extentAt i = 4096 * (L.extents + i) := rfl
  have hb32 : b < 4294967296 := by omega
  have hbehind : ∀ x, 4096 * (L.inodeTable : Int) ≤ x →
      (x < L.recordAt i + 36 ∨ L.recordAt i + 40 ≤ x) → (x < L.extentAt i ∨ L.extentAt i + 8 ≤ x) →
      giveFirstBlock img (L.recordAt i) (L.extentAt i) L.dataMapAt b x = img x := fun x =>
    giveFirstBlock_apply (by omega)
  revert hbehind
  unfold giveFirstBlock
  extract_lets img₁ img₂ img₃ img₄
  intro hbehind
  have hcharged : ∀ x, 4096 * (L.inodeTable : Int) ≤ x →
      setFreeBlocksCount img₄ (freeBlocksCount img₄ - 1) x = img₄ x := fun x hx =>
    setFreeBlocksCount_apply (by omega)
  have hcounted : ∀ x, (x < L.recordAt i + 36 ∨ L.recordAt i + 40 ≤ x) → img₄ x = img₃ x :=
    fun x hx => storeNat_apply_of_outside (by omega)
  have hextended : ∀ x, (x < L.extentAt i ∨ L.extentAt i + 8 ≤ x) → img₃ x = img₁ x :=
    fun x hx => L.putExtent_apply hx
  have hhead : L.SameHead img₄ img₁ := by
    intro x _ hhi
    rw [hcounted x (by omega), hextended x (by omega)]
  refine h.rewritten (b := b) hnd hfile rfl ⟨hi, hsmall.inode_small, .inr ⟨b, rfl, hb⟩, ?_, hsmall.file⟩
    ?_ ?_ (fun j nd' hnd' _ => hunused j nd' hnd') ?_ ?_ ?_ ?_ ?_
  · have hzero := hsmall.size_le
    rw [hext, List.length_nil] at hzero
    exact hzero.trans (Nat.zero_le _)
  · rw [hext]
    exact List.nil_subset _
  · intro j nd' e _ hnd' he
    rw [List.mem_singleton.mp he]
    exact hunused j nd' hnd'
  · refine hat.reshaped (hsmall.file hfile)
      (fun x _ _ _ hx => hbehind x (by omega) hx (by omega)) ?_ ?_ ?_
    · rw [← hat.size]
      exact u64_congr fun x hlo _ => hbehind x (by omega) (by omega) (by omega)
    · have hsame : extentCount (setFreeBlocksCount img₄ (freeBlocksCount img₄ - 1))
            (L.recordAt i) = extentCount img₄ (L.recordAt i) :=
          i32_congr fun x hlo _ => hcharged x (by omega)
      have hone : u32 img₄ (L.recordAt i + 36) = uint32 1 := u32_set32_self
      rw [hsame, extentCount, i32, hone, int32_uint32]
      rfl
    · intro k hk
      obtain rfl : k = 0 := Nat.lt_one_iff.mp hk
      obtain ⟨hstart, hlength⟩ := L.putExtent_fields img₁ i hb32
      have hregion : AgreeOn (setFreeBlocksCount img₄ (freeBlocksCount img₄ - 1)) img₃
          (L.extentAt i) (L.extentAt i + 8) := by
        intro x hlo hhi
        rw [hcharged x (by omega), hcounted x (by omega)]
      constructor
      · exact (u32_congr (hregion.mono (by omega) (by omega))).trans hstart
      · exact (u32_congr (hregion.mono (by omega) (by omega))).trans hlength
  · exact (hhead.of (h.of.modify L.dataMapAt_ge)).setFreeBlocksCount
  · intro k hk
    rw [bitSet_setFreeBlocksCount L.inodeMapAt_ge, hhead.inodeBit hk,
      Layout.inodeBit_modify_dataMap hk]
  · intro c hc
    rw [bitSet_setFreeBlocksCount L.dataMapAt_ge, hhead.dataBit hc, bitSet_modify]
    by_cases hcb : c = b
    · simp [hcb]
    · simp [hcb]
  · intro x hx hxrecord hxextent _
    exact hbehind x hx (by omega) hxextent

/-! ## Another size -/

/-- No block is looked for. -/
def KeepsLength (old size : Nat) : Prop := (int32 (size - (old % 4096 : Nat))).tdiv 4096 ≤ 0

/-- The shrinking loop over one extent of one block, all of which is kept. -/
theorem sameSized_one {img : Image} (hi : i < L.inodes) (hcount : extentCount img (L.recordAt i) = 1)
    (hstart : extentStart img (L.extentAt i) (0 : Nat) = b)
    (hlength : extentLength img (L.extentAt i) (0 : Nat) = 1) (hb : b < 524288) :
    (L.sameSized i 4096 img).img =
      setExtentLength (setExtentCount img (L.recordAt i) 1) (L.extentAt i) (0 : Nat) 1 := by
  have hrecord := L.recordAt_lt hi
  have hextents : 4096 * (L.extents : Int) ≤ L.extentAt i := by
    unfold Layout.extentAt
    omega
  obtain ⟨fuel, hfuel⟩ : ∃ fuel, intRange = fuel + 1 + 1 := ⟨2147483646, rfl⟩
  have hone : int32 (1 : Int) = 1 := by decide
  have htotal : int32 ((4096 / 4096 : Nat) : Int) = 1 := by decide
  have hlength' : int32 (extentLength img (L.extentAt i) 0) = 1 := by
    have hsame : extentLength img (L.extentAt i) 0 = 1 := hlength
    rw [hsame]
    exact hone
  have hblocks : extentBlocks img (L.extentAt i) (0 : Nat) = [(b : Int)] := by
    rw [extentBlocks_eq hstart hlength (by omega)]
    rfl
  have hround : shrinkExtent 1 L.dataMapAt (L.extentAt i) 0 ⟨img, 0, 1, 1⟩ = ⟨img, 1, 1, 1⟩ := by
    rw [shrinkExtent]
    dsimp only
    rw [hblocks, List.foldl_cons, List.foldl_nil, shrinkBlock]
    simp only [zero_ne_one, if_false]
    rfl
  have hcount' : extentCount (setExtentLength (setExtentCount img (L.recordAt i) 1) (L.extentAt i)
      (0 : Nat) 1) (L.recordAt i) = 1 := by
    have hsame : extentCount (setExtentLength (setExtentCount img (L.recordAt i) 1) (L.extentAt i)
        (0 : Nat) 1) (L.recordAt i) = extentCount (setExtentCount img (L.recordAt i) 1)
          (L.recordAt i) := i32_congr fun x _ hhi => storeNat_apply_of_outside (by omega)
    rw [hsame, extentCount, setExtentCount, i32, u32_set32_self, int32_uint32]
    exact hone
  rw [Layout.sameSized, htotal, hcount, hlength', hfuel,
    shrinkExtents_step (by rw [hcount]; decide) hround, shrinkExtents_stop (by rw [hcount']; decide)]

section Truncated

variable {t : Target} (wf : WellFormed L img nodes)
  (hi : nodes.resolve (t.dirs ++ [t.name]) = (i : Int)) (hnd : nodes i = some nd)
  (hext : nd.extents = [(b, 1)])
include wf hi hnd hext

/-- `a1fs_truncate` to another size clears a part of the block behind the file. -/
theorem truncate_stored (hb : L.data + (b + 1) < 524288) (hne : size ≠ nd.size)
    (hlt : size < 18446744073709551616) (hkeeps : KeepsLength nd.size size) :
    ∃ img', a1fsTruncate img t.path size = .ok (0, img') ∧
      BlockStored L img' (chargedBlocks img nd.size size) i (b + 1) size := by
  have hilt := wf.closed.inode_lt i nd hnd
  have hrecord := L.recordAt_lt hilt
  have hdata := L.blockAt_ge_data (b + 1)
  have hroom := L.extentBlocks
  obtain ⟨img₀, himg₀⟩ : ∃ img₀, chargedBlocks img nd.size size = img₀ := ⟨_, rfl⟩
  have hof : L.Of img₀ := himg₀ ▸ wf.of.setFreeBlocksCount
  have hreached : L.reached img₀ i nd = (img₀, ((b + 1 : Nat) : Int)) := by
    rw [Layout.reached, if_neg (by rw [hext]; exact List.cons_ne_nil _ _), Node.lastBlock_one hext]
    rfl
  have hzero : ((int32 (size - (nd.size % 4096 : Nat))).tdiv 4096).toNat = 0 :=
    Int.toNat_of_nonpos hkeeps
  have hrun := wf.truncate_run hi hnd himg₀
  rw [if_pos hne, hreached, Layout.resized, hzero, hof.dataAddr hb] at hrun
  rw [himg₀]
  obtain ⟨c, hc⟩ : ∃ c, nd.size % 4096 = c := ⟨_, rfl⟩
  have hc4096 : c < 4096 := hc ▸ Nat.mod_lt _ (by decide)
  rw [hc] at hrun
  clear hzero hc hne
  refine ⟨_, hrun, fun x hx hxblock => ?_, ?_⟩
  · rw [setSize_apply hx]
    exact fill_apply_of_outside (by omega)
  · exact u64_set64_self.trans (uint64_natCast hlt)

/-- `a1fs_truncate` of a full block to its size. -/
theorem truncate_same (hsize : nd.size = 4096) (hentries : nd.entries = []) :
    ∃ img', a1fsTruncate img t.path 4096 = .ok (0, img') ∧ nd.At L img' i ∧
      ∀ x, (x < L.recordAt i ∨ L.recordAt i + 64 ≤ x) →
        (x < L.extentAt i ∨ L.extentAt i + 8 ≤ x) → img' x = chargedBlocks img 4096 4096 x := by
  have hilt := wf.closed.inode_lt i nd hnd
  have hok := wf.closed.ok i nd hnd
  have hrecord := L.recordAt_lt hilt
  have hextents : 4096 * (L.extents : Int) ≤ L.extentAt i := by
    unfold Layout.extentAt
    omega
  obtain ⟨img₀, himg₀⟩ : ∃ img₀, chargedBlocks img 4096 4096 = img₀ := ⟨_, rfl⟩
  have hat : nd.At L img₀ i := himg₀ ▸ (wf.hold.nodeAt i nd hnd).of_sameTail hok
    Layout.sameTail_setFreeBlocksCount
  have hreached : L.reached img₀ i nd = (img₀, ((b + 1 : Nat) : Int)) := by
    rw [Layout.reached, if_neg (by rw [hext]; exact List.cons_ne_nil _ _), Node.lastBlock_one hext]
    rfl
  have hcount : extentCount img₀ (L.recordAt i) = 1 := by
    rw [hat.count, hext]
    rfl
  have hpos : 0 < nd.extents.length := by
    rw [hext]
    exact Nat.one_pos
  obtain ⟨hstart, hlength⟩ := hat.extents 0 hpos
  simp only [hext, List.getElem_cons_zero] at hstart hlength
  have hbmem : b ∈ nd.blocks := by
    rw [Node.blocks, hext]
    exact List.mem_singleton_self b
  have hb := hok.blocks_lt b hbmem
  have hrun := wf.truncate_run hi hnd (show chargedBlocks img nd.size 4096 = img₀ by rw [hsize, himg₀])
  rw [if_neg (by rw [hsize]; decide), hreached,
    sameSized_one hilt hcount hstart hlength (by omega)] at hrun
  rw [himg₀]
  have hcounted : ∀ x, (x < L.recordAt i + 36 ∨ L.recordAt i + 40 ≤ x) →
      setExtentCount img₀ (L.recordAt i) 1 x = img₀ x :=
    fun x hx => storeNat_apply_of_outside (by omega)
  have hcount' : extentCount (setExtentCount img₀ (L.recordAt i) 1) (L.recordAt i) = 1 := by
    rw [extentCount, setExtentCount, i32, u32_set32_self, int32_uint32]
    decide
  generalize setExtentCount img₀ (L.recordAt i) 1 = img₁ at *
  have hlength' : extentLength (setExtentLength img₁ (L.extentAt i) (0 : Nat) 1) (L.extentAt i)
      (0 : Nat) = 1 := u32_set32_self
  have hextended : ∀ x, (x < L.extentAt i + 4 ∨ L.extentAt i + 8 ≤ x) →
      setExtentLength img₁ (L.extentAt i) (0 : Nat) 1 x = img₁ x :=
    fun x hx => storeNat_apply_of_outside (by omega)
  generalize setExtentLength img₁ (L.extentAt i) (0 : Nat) 1 = img₂ at *
  have hsize' : inodeSize (setSize img₂ (L.recordAt i) (4096 : Nat)) (L.recordAt i) = 4096 :=
    u64_set64_self
  have hsized : ∀ x, (x < L.recordAt i + 8 ∨ L.recordAt i + 16 ≤ x) →
      setSize img₂ (L.recordAt i) (4096 : Nat) x = img₂ x := fun x hx => setSize_apply hx
  generalize setSize img₂ (L.recordAt i) (4096 : Nat) = img₃ at *
  refine ⟨_, hrun, ?_, fun x hxrecord hxextent => ?_⟩
  · have hkeeps : ∀ x, L.recordAt i ≤ x → x < L.recordAt i + 64 →
        (x < L.recordAt i + 8 ∨ L.recordAt i + 16 ≤ x) →
        (x < L.recordAt i + 36 ∨ L.recordAt i + 40 ≤ x) → img₃ x = img₀ x := by
      intro x _ _ hxsize hxcount
      rw [hsized x hxsize, hextended x (by omega), hcounted x hxcount]
    refine hat.reshaped hentries hkeeps ?_ ?_ ?_
    · rw [hsize', hsize]
    · have hsame : extentCount img₃ (L.recordAt i) = extentCount img₁ (L.recordAt i) :=
        i32_congr fun x hlo hhi => by rw [hsized x (by omega), hextended x (by omega)]
      rw [hsame, hcount', hext]
      rfl
    · intro k hk
      obtain rfl : k = 0 := by
        rw [hext] at hk
        exact Nat.lt_one_iff.mp hk
      simp only [hext, List.getElem_cons_zero]
      constructor
      · rw [← hstart]
        refine u32_congr fun x hlo hhi => ?_
        rw [hsized x (by omega), hextended x (by omega), hcounted x (by omega)]
      · rw [← hlength']
        exact u32_congr fun x hlo _ => hsized x (by omega)
  · rw [hsized x (by omega), hextended x (by omega), hcounted x (by omega)]

end Truncated

/-- `a1fs_truncate` gives an empty file a block whose number it takes from the inode
bitmap. -/
theorem truncate_empty {t : Target} (wf : WellFormed L img nodes)
    (hi : nodes.resolve (t.dirs ++ [t.name]) = (i : Int)) (hnd : nodes i = some nd)
    (hext : nd.extents = []) (hsize : nd.size = 0) (hne : size ≠ 0)
    (hkeeps : (int32 size).tdiv 4096 ≤ 0) (hleast : LeastClear img L.inodeMapAt k) (hk : k < 8)
    (haddr : L.data + k < 524288) :
    ∃ img', a1fsTruncate img t.path size = .ok (0, img') ∧ L.Of img' ∧
      extentCount img' (L.recordAt i) = 1 ∧
      extentBlocks img' (L.extentAt i) (0 : Nat) = [(k : Int)] ∧
      bitSet img' L.inodeMapAt k = true ∧
      (∀ j < L.inodeBitCount, bitSet img L.inodeMapAt j = true → bitSet img' L.inodeMapAt j = true) ∧
      ∀ c < 65536, bitSet img' L.dataMapAt c = bitSet img L.dataMapAt c := by
  have hlt := wf.closed.inode_lt i nd hnd
  have hok := wf.closed.ok i nd hnd
  have hrecord := L.recordAt_lt hlt
  have hextent := L.extentAt_lt hlt
  have hroom := L.extentBlocks
  have hbits := L.bits_ge
  have hextents : 4096 * (L.extents : Int) ≤ L.extentAt i := by
    unfold Layout.extentAt
    omega
  obtain ⟨img₀, himg₀⟩ : ∃ img₀, chargedBlocks img nd.size size = img₀ := ⟨_, rfl⟩
  have hof : L.Of img₀ := himg₀ ▸ wf.of.setFreeBlocksCount
  have hat : nd.At L img₀ i := himg₀ ▸ (wf.hold.nodeAt i nd hnd).of_sameTail hok
    Layout.sameTail_setFreeBlocksCount
  have hbit : ∀ a j, 4096 ≤ a → bitSet img₀ a j = bitSet img a j := fun a j ha =>
    himg₀ ▸ bitSet_setFreeBlocksCount ha
  have hleast₀ : LeastClear img₀ L.inodeMapAt k :=
    hleast.congr fun _ _ => hbit _ _ L.inodeMapAt_ge
  have hlast : nd.extents ≠ [] → L.data + (nd.lastBlock + 1) < 524288 := fun hne => absurd hext hne
  have hfind := hleast₀.findNextBit
  rw [Nat.mod_eq_of_lt hk] at hfind
  obtain ⟨hcount, hblocks⟩ := reached_first hat hok hof hlt hext
  have hdrift : Drift L i img₀ (L.resized i nd.size size (L.reached img₀ i nd)) :=
    resized_drift hat hok hof hlt hlast
  have hset : bitSet (L.resized i nd.size size (L.reached img₀ i nd)) L.inodeMapAt k = true :=
    resized_sets hat hok hof hlt hlast hk hleast₀ (.inl hext)
  have hofReached := (reached_drift hat hok hof hlt).of
  have hrun := wf.truncate_run hi hnd himg₀
  -- Behind the extent only the new block is cleared and the size is stored.
  have hreached : (L.reached img₀ i nd).2 = (k : Int) := by
    rw [Layout.reached, if_pos hext]
    exact hfind
  have hnone : ((int32 (size - (nd.size % 4096 : Nat))).tdiv 4096).toNat = 0 := by
    rw [hsize]
    exact Int.toNat_of_nonpos hkeeps
  have hresized : ∀ x, x < 4096 * (L.data : Int) →
      L.resized i nd.size size (L.reached img₀ i nd) x = (L.reached img₀ i nd).1 x := by
    have hdata := L.blockAt_ge_data k
    intro x hx
    rw [Layout.resized, hnone, hreached, hofReached.dataAddr haddr, hsize]
    exact fill_apply_of_outside (.inl (by omega))
  rw [if_pos (by omega)] at hrun
  have hhead : ∀ {m : Image}, L.SameHead (setSize m (L.recordAt i) size) m := fun {m} =>
    (Layout.SameHead.refl L m).setSize (L.recordAt_ge i)
  rw [hfind] at hblocks
  generalize (L.reached img₀ i nd).1 = img₁ at *
  generalize L.resized i nd.size size (L.reached img₀ i nd) = img₂ at *
  refine ⟨_, hrun, hhead.of hdrift.of, ?_, ?_, ?_, fun j hj hjset => ?_, fun c hc => ?_⟩
  · rw [← hcount]
    refine i32_congr fun x hlo hhi => ?_
    rw [setSize_apply (by omega), hresized x (by omega)]
  · rw [← hblocks]
    have hregion : AgreeOn (setSize img₂ (L.recordAt i) size) img₁ (L.extentAt i)
        (L.extentAt i + 8) := by
      intro x hlo hhi
      rw [setSize_apply (by omega), hresized x (by omega)]
    have hstart : extentStart (setSize img₂ (L.recordAt i) size) (L.extentAt i) (0 : Nat) =
        extentStart img₁ (L.extentAt i) 0 := u32_congr (hregion.mono (by omega) (by omega))
    have hlength : extentLength (setSize img₂ (L.recordAt i) size) (L.extentAt i) (0 : Nat) =
        extentLength img₁ (L.extentAt i) 0 := u32_congr (hregion.mono (by omega) (by omega))
    rw [extentBlocks, extentBlocks, hstart, hlength]
  · rw [hhead.inodeBit (by omega), hset]
  · rw [hhead.inodeBit hj]
    refine hdrift.inodeBit j hj ?_
    rw [hbit _ _ L.inodeMapAt_ge, hjset]
  · rw [hhead.dataBit hc, hdrift.dataBit c hc, hbit _ _ L.dataMapAt_ge]

end UoftOs.FileSystem
