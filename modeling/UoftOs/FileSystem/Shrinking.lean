import Mathlib.Data.List.Perm.Basic
import UoftOs.FileSystem.Contents
import UoftOs.FileSystem.Growing

/-!
# Removed entries in a consistent image

In a directory of one block the loop over the slots finds the entry, and the last
entry takes its slot. `a1fs_unlink` addresses the record of its parent in blocks, so
it updates the record only when the parent is the root.
-/

namespace UoftOs.FileSystem

open Lib.ByteMemory Lib.NamedTree

/-! ## The last element in the place of another -/

section Lists

variable {α : Type*} {l : List α} {last : α} {j k : Nat}

/-- The list in which the last element takes the place of element `j`. -/
def fillGap (l : List α) (j : Nat) (last : α) : List α := (l.set j last).dropLast

theorem fillGap_perm (hj : j < l.length) (hlast : l.getLast? = some last) :
    (fillGap l j last).Perm (l.eraseIdx j) := by
  have hsame : (l.set j last)[l.length - 1]? = (l.set j last)[j]? := by
    rw [List.getElem?_set_self hj, List.getElem?_set]
    split
    · simp
    · rw [← List.getLast?_eq_getElem?, hlast]
  have hdrop : (l.set j last).dropLast = (l.set j last).eraseIdx (l.length - 1) := by
    rw [← List.length_set (a := last) (i := j), List.eraseIdx_length_sub_one]
  have hperm := List.Perm.eraseIdx_of_getElem?_eq hsame (List.Perm.refl _)
  rwa [List.eraseIdx_set_eq, ← hdrop] at hperm

theorem getElem?_fillGap (hk : k + 1 < l.length) :
    (fillGap l j last)[k]? = if k = j then some last else l[k]? := by
  rw [fillGap, List.getElem?_dropLast, List.length_set, if_pos (by omega), List.getElem?_set]
  by_cases hjk : j = k
  · subst hjk
    simp only [if_true]
    rw [if_pos (by omega)]
  · rw [if_neg hjk, if_neg (Ne.symm hjk)]

theorem length_fillGap : (fillGap l j last).length = l.length - 1 := by
  rw [fillGap, List.length_dropLast, List.length_set]

end Lists

variable {L : Layout} {img img' : Image} {nodes : Nodes} {nd pn : Node}
  {i j k p b q : Nat} {name : Name} {last : Name × Nat}

/-! ## The entries that are left -/

namespace Node

theorem IsDirAt.shrunk_entries (last : Name × Nat) (h : pn.IsDirAt k p) (hj : j < pn.children.length) :
    (pn.shrunk (fillGap pn.children j last)).entries = fillGap pn.entries (j + 2) last := by
  have hne : pn.children.set j last ≠ [] := by
    intro hnil
    have hlen := congrArg List.length hnil
    rw [List.length_set, List.length_nil] at hlen
    omega
  have htake : pn.entries.take 2 = [(dot, k), (dotDot, p)] := by
    rw [h.entries]
    rfl
  have hset : pn.entries.set (j + 2) last = (dot, k) :: (dotDot, p) :: pn.children.set j last := by
    rw [h.entries]
    rfl
  simp only [shrunk]
  rw [htake, fillGap, fillGap, hset, List.dropLast_cons_of_ne_nil (List.cons_ne_nil _ _),
    List.dropLast_cons_of_ne_nil hne]
  rfl

theorem IsDirAt.getElem_dots (h : pn.IsDirAt k p) :
    pn.entries[0]? = some (dot, k) ∧ pn.entries[1]? = some (dotDot, p) := by
  rw [h.entries]
  exact ⟨rfl, rfl⟩

theorem IsDirAt.getElem_children (h : pn.IsDirAt k p) (hj : j < pn.children.length) :
    pn.entries[j + 2]? = some pn.children[j] := by
  rw [h.entries]
  simp [hj]

end Node

/-! ## The image without the entry -/

/-- What a removal leaves of the parent: a smaller record, and the last entry in the
slot of the removed one. -/
structure GapClosed (L : Layout) (img' img : Image) (p : Nat) (slot : Int) (isLast : Prop)
    (last : Name × Nat) : Prop where
  keeps : ∀ x, (x < L.recordAt p ∨ L.recordAt p + 64 ≤ x) → (x < slot ∨ slot + 256 ≤ x) →
    img' x = img x
  mode : inodeMode img' (L.recordAt p) = inodeMode img (L.recordAt p)
  size : inodeSize img' (L.recordAt p) = inodeSize img (L.recordAt p) - 256
  number : inoNumber img' (L.recordAt p) = inoNumber img (L.recordAt p)
  count : extentCount img' (L.recordAt p) = extentCount img (L.recordAt p)
  entry : ¬ isLast → StringAt img' (slot + 4) last.1 ∧ dentryIno img' slot = last.2

/-- The head of the image is left alone. -/
theorem GapClosed.head {isLast : Prop} {slot : Int} (h : GapClosed L img' img p slot isLast last)
    (hslot : 4096 * (L.inodeTable : Int) ≤ slot) : L.SameHead img' img := by
  have hge := L.recordAt_ge p
  exact fun x _ hhi => h.keeps x (by omega) (by omega)

/-- Between the bitmaps and the data only the record of `p` changes. -/
def Layout.KeepsOthers (L : Layout) (img' img : Image) (p : Nat) : Prop :=
  ∀ x, 4096 * (L.inodeTable : Int) ≤ x → x < 4096 * (L.data : Int) →
    (x < L.recordAt p ∨ L.recordAt p + 64 ≤ x) → img' x = img x

namespace Tree

section Unlinked

variable (h : Tree L nodes) (hold : Holds L img nodes) (hpn : nodes p = some pn)
  (hdir : sIsDir pn.mode) (hq : pn.extents = [(q, 1)])
  (hlinks : inodeLinks img' (L.recordAt p) = inodeLinks img (L.recordAt p) - 1)
include h hold hpn hdir hq hlinks

/-- The parent stands in the image with the closed gap. -/
theorem shrunk_at (hj : j < pn.children.length)
    (hgap : GapClosed L img' img p (L.blockAt q + 256 * (j + 2 : Nat))
      (j + 1 = pn.children.length) last) :
    (pn.shrunk (fillGap pn.children j last)).At L img' p := by
  obtain ⟨r, hr, _⟩ := h.directory p pn hpn hdir
  have hat := hold.nodeAt p pn hpn
  have hp := (h.small p pn hpn).inode_lt
  have hlen := h.length_entries hpn
  have htwo := hr.length_entries
  have hqdata := L.blockAt_ge_data q
  have hprecord := L.recordAt_lt hp
  have hpge := L.recordAt_ge p
  have hextents := L.extentBlocks
  have htable := L.extents_lt
  have hpext : L.extentAt p = 4096 * (L.extents + p) := rfl
  have hpextent := L.extentAt_lt hp
  constructor
  case mode => rw [hgap.mode, hat.mode]; rfl
  case links => rw [hlinks, hat.links]; rfl
  case size => rw [hgap.size, hat.size]; rfl
  case number => rw [hgap.number, hat.number]
  case count => rw [hgap.count, hat.count]; rfl
  case extents =>
      intro k hk
      have hregion : AgreeOn img' img (L.extentAt p) (L.extentAt p + 8) := fun x hlo hhi =>
        hgap.keeps x (by omega) (by omega)
      refine hat.extents_congr (hregion.mono (le_refl _) ?_) hk
      rw [hq, List.length_singleton]
      omega
  case slots =>
      intro k hk
      have hentries := hr.shrunk_entries last hj
      have hget : (pn.shrunk (fillGap pn.children j last)).entries[k]? =
          (fillGap pn.entries (j + 2) last)[k]? := by rw [hentries]
      have hshort : k + 1 < pn.entries.length := by
        rw [hentries, length_fillGap] at hk
        omega
      rw [getElem?_fillGap hshort, List.getElem?_eq_getElem hk] at hget
      have hslot : (pn.shrunk (fillGap pn.children j last)).slotAt L k =
          L.blockAt q + 256 * (k : Int) := Node.slotAt_one hq (by omega)
      rw [hslot]
      by_cases hkj : k = j + 2
      · rw [if_pos hkj] at hget
        rw [Option.some.inj hget, hkj]
        exact hgap.entry (by omega)
      · have hlt : k < pn.entries.length := by omega
        rw [if_neg hkj, List.getElem?_eq_getElem hlt] at hget
        rw [Option.some.inj hget]
        obtain ⟨hstring, hino⟩ := hat.slots k hlt
        rw [Node.slotAt_one hq (by omega)] at hstring hino
        have hname := ((h.ok hpn).names _ (List.getElem_mem hlt)).2
        have hregion : AgreeOn img' img (L.blockAt q + 256 * (k : Int))
            (L.blockAt q + 256 * (k : Int) + 256) := fun x hlo hhi =>
          hgap.keeps x (by omega) (by omega)
        obtain ⟨hstring', hsame⟩ := dentry_congr hregion hname hstring
        exact ⟨hstring', hsame.trans hino⟩

/-- The nodes without the removed one stand in the image. -/
theorem holds_unlinked (hj : j < pn.children.length)
    (hgap : GapClosed L img' img p (L.blockAt q + 256 * (j + 2 : Nat))
      (j + 1 = pn.children.length) last) :
    Holds L img' (nodes.unlinked p pn (fillGap pn.children j last) i) := by
  have hhead : L.SameHead img' img := hgap.head (by have := L.blockAt_ge q; omega)
  refine ⟨hhead.of hold.of, fun k nd hnd => ?_⟩
  rcases Nodes.unlinked_cases hnd with ⟨_, ⟨rfl, rfl⟩ | ⟨hkp, hsame⟩⟩
  · exact h.shrunk_at hold hpn hdir hq hlinks hj hgap
  · have hp := (h.small p pn hpn).inode_lt
    have hk := (h.small k nd hsame).inode_lt
    have hlen := h.length_entries hpn
    obtain ⟨r, hr, _⟩ := h.directory p pn hpn hdir
    have htwo := hr.length_entries
    have hqdata := L.blockAt_ge_data q
    have hprecord := L.recordAt_lt hp
    have hkrecord := L.recordAt_lt hk
    have hkge := L.recordAt_ge k
    have hextents := L.extentBlocks
    have htable := L.extents_lt
    have hkext : L.extentAt k = 4096 * (L.extents + k) := rfl
    have hkextent := L.extentAt_lt hk
    have hrecords := L.recordAt_apart hkp
    refine h.at_congr hsame (hold.nodeAt k nd hsame) ?_ ?_ ?_
    · intro x hlo hhi
      exact hgap.keeps x (by omega) (by omega)
    · intro x hlo hhi
      exact hgap.keeps x (by omega) (by omega)
    · intro _ c hc x hlo hhi
      have hklen := h.length_entries hsame
      have hcdata := L.blockAt_ge_data c
      have hcq : c ≠ q := by
        rintro rfl
        exact hkp (h.apart k p nd pn (c, 1) hsame hpn (hc ▸ List.mem_singleton_self _)
          (hq ▸ List.mem_singleton_self _))
      have hcq' := L.blockAt_apart hcq
      exact hgap.keeps x (by omega) (by omega)

end Unlinked

end Tree

/-! ## The loop over the slots -/

/-- What the removal of an entry reads of a directory with the block `q`. The link count
is not among it: `a1fs_unlink` has changed it before. -/
structure Node.InBlock (pn : Node) (L : Layout) (img : Image) (p q : Nat) : Prop where
  size : inodeSize img (L.recordAt p) = 256 * pn.entries.length
  count : extentCount img (L.recordAt p) = 1
  extent : extentStart img (L.extentAt p) (0 : Nat) = q ∧
    extentLength img (L.extentAt p) (0 : Nat) = 1
  slots : ∀ k (hk : k < pn.entries.length),
    StringAt img (L.blockAt q + 256 * (k : Int) + 4) pn.entries[k].1 ∧
      dentryIno img (L.blockAt q + 256 * (k : Int)) = pn.entries[k].2

namespace Tree

theorem inBlock (h : Tree L nodes) (hat : pn.At L img p) (hpn : nodes p = some pn)
    (hdir : sIsDir pn.mode) (hq : pn.extents = [(q, 1)]) : pn.InBlock L img p q := by
  have hlen := h.length_entries hpn
  have hpos : 0 < pn.extents.length := by
    rw [hq]
    exact Nat.one_pos
  obtain ⟨hstart, hlength⟩ := hat.extents 0 hpos
  constructor
  case size => rw [hat.size, (h.ok hpn).size_dir hdir]
  case count => rw [hat.count, hq]; rfl
  case extent =>
      rw [hstart, hlength]
      simp only [hq, List.getElem_cons_zero, and_self]
  case slots =>
      intro k hk
      have hslot := hat.slots k hk
      rwa [Node.slotAt_one hq (by omega)] at hslot

section Search

variable (h : Tree L nodes) (hin : pn.InBlock L img p q) (hof : L.Of img) (hpn : nodes p = some pn)
  (hdir : sIsDir pn.mode) (hq : pn.extents = [(q, 1)])
include h hin hof hpn hq

theorem numberedSlots_one : numberedSlots img (L.recordAt p) (L.extentAt p) =
    (List.range 16).map fun (x : Nat) => (L.blockAt q + 256 * (x : Int), x) := by
  have hmem : q ∈ pn.blocks := by
    rw [(h.small p pn hpn).mem_blocks, hq]
    exact List.mem_singleton_self _
  have hlt := (h.ok hpn).blocks_lt q hmem
  have hblocks : fileBlocks img (L.extentAt p) 1 = [(q : Int)] := by
    have hone := extentBlocks_eq hin.extent.1 hin.extent.2 (by omega)
    rw [fileBlocks, Int.toNat_one, List.range_one, List.flatMap_singleton, hone]
    rfl
  rw [numberedSlots, hin.count, hblocks, List.flatMap_singleton, hof.dataAddr hlt]

include hdir

/-- The entry is found in its slot. -/
theorem findSlot_one (hj : j < pn.children.length) (hname : pn.children[j].1 = name) :
    findSlot img (L.recordAt p) (L.extentAt p) name =
      some (L.blockAt q + 256 * (j + 2 : Nat), j + 2) := by
  obtain ⟨r, hr, _⟩ := h.directory p pn hpn hdir
  have htwo := hr.length_entries
  have hlen := h.length_entries hpn
  have hvalid := (hr.names _ (List.getElem_mem hj)).1
  rw [hname] at hvalid
  have hstring : ∀ k (hk : k < pn.entries.length),
      (StringAt img (L.blockAt q + 256 * (k : Int) + 4) name ↔ pn.entries[k].1 = name) := by
    intro k hk
    exact (hin.slots k hk).1.iff_eq ((h.ok hpn).names _ (List.getElem_mem hk)).1 hvalid.zeroFree
  -- The entries before it have other names.
  have hbefore : ∀ k (hk : k < j + 2), pn.entries[k].1 ≠ name := by
    intro k hk heq
    have hget : pn.entries[k]? = some pn.entries[k] := List.getElem?_eq_getElem (by omega)
    rcases k with _ | _ | m
    · rw [hr.getElem_dots.1] at hget
      rw [← Option.some.inj hget] at heq
      exact hvalid.ne_dot heq.symm
    · rw [hr.getElem_dots.2] at hget
      rw [← Option.some.inj hget] at heq
      exact hvalid.ne_dotDot heq.symm
    · rw [hr.getElem_children (show m < pn.children.length by omega)] at hget
      rw [← Option.some.inj hget, ← hname] at heq
      have hm : m < (pn.children.map Prod.fst).length := by
        rw [List.length_map]
        omega
      have hjm : j < (pn.children.map Prod.fst).length := by
        rw [List.length_map]
        exact hj
      have hsame := (@List.Nodup.getElem_inj_iff _ _ hr.nodup m hm j hjm).mp (by simpa using heq)
      omega
  rw [findSlot, h.numberedSlots_one hin hof hpn hq, List.find?_map]
  have hfind : (List.range 16).find? ((fun slot : Int × Nat =>
      decide (StringAt img (slot.1 + 4) name)) ∘ fun (x : Nat) =>
        (L.blockAt q + 256 * (x : Int), x)) = some (j + 2) := by
    rw [List.find?_range_eq_some]
    refine ⟨?_, List.mem_range.mpr (by omega), fun k hk => ?_⟩
    · have hentry := hr.getElem_children hj
      rw [List.getElem?_eq_getElem (by omega)] at hentry
      have hiff := (hstring (j + 2) (by omega)).mpr (by rw [Option.some.inj hentry, hname])
      simpa using hiff
    · have hiff := hstring k (by omega)
      simpa [hiff] using hbefore k hk
  rw [hfind]
  rfl

omit h hof hpn hdir hq in
theorem numLastEntry_one (hlen : pn.entries.length ≤ 10) :
    numLastEntry img (L.recordAt p) = pn.entries.length := by
  have hmod : 256 * pn.entries.length / 256 % 16 = pn.entries.length := by omega
  rw [numLastEntry, hin.size, hmod, int32_of_bounds (by omega) (by omega)]

/-- The last entry stands in the last slot. -/
theorem lastSlot_one (hlast : pn.children.getLast? = some last) :
    ∃ slot : Int, lastSlot img (L.recordAt p) (L.extentAt p) = slot ∧
      slot + 256 = L.blockAt q + 256 * pn.entries.length ∧
      StringAt img (slot + 4) last.1 ∧ dentryIno img slot = last.2 := by
  obtain ⟨r, hr, _⟩ := h.directory p pn hpn hdir
  have hlen := h.length_entries hpn
  have htwo := hr.length_entries
  have hexts : pn.ExtentsAt L img p := by
    intro k hk
    have hzero : k = 0 := by
      rw [hq, List.length_singleton] at hk
      omega
    subst hzero
    simp only [hq, List.getElem_cons_zero]
    exact hin.extent
  have hone : extentCount img (L.recordAt p) ≤ pn.extents.length := by
    rw [hin.count, hq]
    rfl
  obtain ⟨b, hb, hslot⟩ := lastSlot_eq hexts (h.ok hpn) hof hone (by rw [hin.count]; decide)
  have hbq : b = q := by
    rw [(h.small p pn hpn).mem_blocks, hq, List.mem_singleton, Prod.mk.injEq] at hb
    exact hb.1
  rw [hbq, numLastEntry_one hin hlen] at hslot
  obtain ⟨m, hm⟩ : ∃ m, pn.children.length = m + 1 := by
    cases hc : pn.children.length with
    | zero =>
        rw [List.length_eq_zero_iff.mp hc] at hlast
        cases hlast
    | succ m => exact ⟨m, rfl⟩
  rw [List.getLast?_eq_getElem?, hm, Nat.add_sub_cancel] at hlast
  have hentry := hr.getElem_children (show m < pn.children.length by omega)
  rw [← List.getElem?_eq_getElem (show m < pn.children.length by omega), hlast,
    List.getElem?_eq_getElem (show m + 2 < pn.entries.length by omega)] at hentry
  obtain ⟨hstring, hino⟩ := hin.slots (m + 2) (by omega)
  rw [Option.some.inj hentry] at hstring hino
  refine ⟨L.blockAt q + 256 * (m + 2 : Nat), ?_, by omega, hstring, hino⟩
  rw [hslot]
  omega

end Search

end Tree

/-! ## The closed gap -/

section Copy

variable {s : Name} {d lastdr x v : Int}

theorem copiedDentry_apply (hs : s.length < 252) (hx : x < d ∨ d + 256 ≤ x) :
    setDentryIno (setDentryName img d s) d v x = img x := by
  unfold setDentryIno setDentryName set32
  rw [storeNat_apply_of_outside (by omega),
    store_apply_of_outside (by rw [length_terminated]; omega)]

/-- The copy of an entry from another slot. -/
theorem copiedDentry (img : Image) (hs : s.length < 252) (hlastdr : d + 256 ≤ lastdr ∨ lastdr + 256 ≤ d) :
    StringAt (setDentryIno (setDentryName img d s) d v) (d + 4) s ∧
      dentryIno (setDentryIno (setDentryName img d s) d
        (dentryIno (setDentryName img d s) lastdr)) d = dentryIno img lastdr := by
  constructor
  · unfold setDentryIno set32
    exact stringAt_store_self.congr fun y hlo _ => storeNat_apply_of_outside (by omega)
  · have hino : dentryIno (setDentryName img d s) lastdr = dentryIno img lastdr := by
      apply u32_congr
      intro y hlo hhi
      exact store_apply_of_outside (by rw [length_terminated]; omega)
    have hlt : dentryIno img lastdr < 4294967296 := load_lt
    rw [hino, dentryIno, setDentryIno, u32_set32_self, uint32_natCast hlt]

end Copy

namespace GapClosed

variable {isLast : Prop} {slot : Int}

/-- The smaller size behind what has been stored to the slot. -/
theorem of_setSize (hp : p < L.inodes) (hslot : 4096 * (L.data : Int) ≤ slot)
    (hkeeps : ∀ x, (x < slot ∨ slot + 256 ≤ x) → img' x = img x)
    (hsize : 256 ≤ inodeSize img (L.recordAt p))
    (hentry : ¬ isLast → StringAt img' (slot + 4) last.1 ∧ last.1.length < 252 ∧
      dentryIno img' slot = last.2) :
    GapClosed L (setSize img' (L.recordAt p) (inodeSize img' (L.recordAt p) - 256)) img p slot
        isLast last ∧
      inodeLinks (setSize img' (L.recordAt p) (inodeSize img' (L.recordAt p) - 256))
        (L.recordAt p) = inodeLinks img (L.recordAt p) := by
  have hrecord := L.recordAt_lt hp
  have hge := L.recordAt_ge p
  have hextents := L.extentBlocks
  have hregion : AgreeOn img' img (L.recordAt p) (L.recordAt p + 64) := fun x hlo hhi =>
    hkeeps x (.inl (by omega))
  obtain ⟨hmode, hlinks, hsame, hnumber, hcount⟩ := record_congr hregion
  have happly : ∀ v x, (x < L.recordAt p + 8 ∨ L.recordAt p + 16 ≤ x) →
      setSize img' (L.recordAt p) v x = img' x := fun v x hx =>
    storeNat_apply_of_outside (by omega)
  have hlt : inodeSize img (L.recordAt p) < 18446744073709551616 := load_lt
  rw [hsame]
  obtain ⟨size, hs⟩ : ∃ size, inodeSize img (L.recordAt p) = size := ⟨_, rfl⟩
  rw [hs] at hsize hlt ⊢
  refine ⟨⟨?_, ?_, ?_, ?_, ?_, ?_⟩, ?_⟩
  · intro x hx hxslot
    rw [happly _ x (by omega), hkeeps x hxslot]
  · rw [← hmode]
    exact u32_set64_of_disjoint (by omega)
  · rw [hs]
    have hval : inodeSize (setSize img' (L.recordAt p) (size - 256)) (L.recordAt p) =
        uint64 ((size : Int) - 256) := u64_set64_self
    rw [hval]
    unfold uint64
    omega
  · rw [← hnumber]
    exact i32_congr fun x hlo hhi => happly _ x (by omega)
  · rw [← hcount]
    exact i32_congr fun x hlo hhi => happly _ x (by omega)
  · intro hne
    obtain ⟨hstring, hshort, hino⟩ := hentry hne
    obtain ⟨hstring', hino'⟩ := dentry_congr (fun x hlo _ => happly _ x (by omega)) hshort hstring
    exact ⟨hstring', hino'.trans hino⟩
  · rw [← hlinks]
    exact u32_set64_of_disjoint (by omega)

/-! ### The link count, before or after -/

variable {v : Int}

theorem setLinks_apply {x a : Int} (hx : x < a + 4 ∨ a + 8 ≤ x) : setLinks img a v x = img x :=
  storeNat_apply_of_outside (by omega)

theorem setLinks_fields (img : Image) (v a : Int) :
    inodeMode (setLinks img a v) a = inodeMode img a ∧
      inodeSize (setLinks img a v) a = inodeSize img a ∧
      inoNumber (setLinks img a v) a = inoNumber img a ∧
      extentCount (setLinks img a v) a = extentCount img a :=
  ⟨u32_congr fun _ _ _ => setLinks_apply (by omega),
    u64_congr fun _ _ _ => setLinks_apply (by omega),
    i32_congr fun _ _ _ => setLinks_apply (by omega),
    i32_congr fun _ _ _ => setLinks_apply (by omega)⟩

theorem inodeLinks_setLinks {a : Int} (h : 0 < inodeLinks img a) :
    inodeLinks (setLinks img a (inodeLinks img a - 1)) a = inodeLinks img a - 1 := by
  have hlt : inodeLinks img a < 4294967296 := load_lt
  have hval : inodeLinks (setLinks img a (inodeLinks img a - 1)) a =
      uint32 ((inodeLinks img a : Int) - 1) := u32_set32_self
  rw [hval]
  unfold uint32
  omega

/-- As in `a1fs_rmdir`. -/
theorem setLinks_after (h : GapClosed L img' img p slot isLast last) (hp : p < L.inodes)
    (hslot : 4096 * (L.data : Int) ≤ slot) (hshort : last.1.length < 252) :
    GapClosed L (setLinks img' (L.recordAt p) v) img p slot isLast last := by
  have hrecord := L.recordAt_lt hp
  have hextents := L.extentBlocks
  obtain ⟨hmode, hsize, hnumber, hcount⟩ := setLinks_fields img' v (L.recordAt p)
  refine ⟨?_, hmode.trans h.mode, hsize.trans h.size, hnumber.trans h.number, hcount.trans h.count,
    ?_⟩
  · intro x hx hxslot
    rw [setLinks_apply (by omega), h.keeps x hx hxslot]
  · intro hne
    obtain ⟨hstring, hino⟩ := h.entry hne
    have hregion : AgreeOn (setLinks img' (L.recordAt p) v) img' slot (slot + 256) :=
      fun x hlo _ => setLinks_apply (by omega)
    obtain ⟨hstring', hino'⟩ := dentry_congr hregion hshort hstring
    exact ⟨hstring', hino'.trans hino⟩

/-- As in `a1fs_unlink`. -/
theorem setLinks_before (h : GapClosed L img' (setLinks img (L.recordAt p) v) p slot isLast last) :
    GapClosed L img' img p slot isLast last := by
  obtain ⟨hmode, hsize, hnumber, hcount⟩ := setLinks_fields img v (L.recordAt p)
  refine ⟨?_, h.mode.trans hmode, h.size.trans (by rw [hsize]), h.number.trans hnumber,
    h.count.trans hcount, h.entry⟩
  intro x hx hxslot
  rw [h.keeps x hx hxslot, setLinks_apply (by omega)]

end GapClosed

theorem Node.InBlock.setLinks {v : Int} (h : pn.InBlock L img p q) (hok : pn.Ok L)
    (hlen : pn.entries.length ≤ 10) (hp : p < L.inodes) :
    pn.InBlock L (setLinks img (L.recordAt p) v) p q := by
  have hrecord := L.recordAt_lt hp
  have hext : L.extentAt p = 4096 * (L.extents + p) := rfl
  have hdata := L.blockAt_ge_data q
  have hextents := L.extentBlocks
  obtain ⟨_, hsize, _, hcount⟩ := GapClosed.setLinks_fields img v (L.recordAt p)
  have hkeeps : ∀ x, L.recordAt p + 8 ≤ x → FileSystem.setLinks img (L.recordAt p) v x = img x :=
    fun x hx => GapClosed.setLinks_apply (.inr hx)
  constructor
  case size => rw [hsize, h.size]
  case count => rw [hcount, h.count]
  case extent =>
      rw [← h.extent.1, ← h.extent.2]
      exact ⟨u32_congr fun x hlo _ => hkeeps x (by omega),
        u32_congr fun x hlo _ => hkeeps x (by omega)⟩
  case slots =>
      intro k hk
      obtain ⟨hstring, hino⟩ := h.slots k hk
      have hregion : AgreeOn (FileSystem.setLinks img (L.recordAt p) v) img
          (L.blockAt q + 256 * (k : Int)) (L.blockAt q + 256 * (k : Int) + 256) :=
        fun x hlo _ => hkeeps x (by omega)
      obtain ⟨hstring', hino'⟩ :=
        dentry_congr hregion (hok.names _ (List.getElem_mem hk)).2 hstring
      exact ⟨hstring', hino'.trans hino⟩

namespace Tree

/-- The removal of an entry from a directory of one block. -/
theorem removeDentry_one (h : Tree L nodes) (hin : pn.InBlock L img p q) (hof : L.Of img)
    (hpn : nodes p = some pn) (hdir : sIsDir pn.mode) (hq : pn.extents = [(q, 1)])
    (hj : j < pn.children.length) (hname : pn.children[j].1 = name)
    (hlast : pn.children.getLast? = some last) :
    ∃ img', removeDentry img (L.recordAt p) (L.extentAt p) name = .ok (img', true) ∧
      GapClosed L img' img p (L.blockAt q + 256 * (j + 2 : Nat)) (j + 1 = pn.children.length) last ∧
      inodeLinks img' (L.recordAt p) = inodeLinks img (L.recordAt p) := by
  obtain ⟨r, hr, _⟩ := h.directory p pn hpn hdir
  have htwo := hr.length_entries
  have hlen := h.length_entries hpn
  have hp := (h.small p pn hpn).inode_lt
  have hdata := L.blockAt_ge_data q
  have hfind := h.findSlot_one hin hof hpn hdir hq hj hname
  have hnum := numLastEntry_one hin hlen
  have hsize : 256 ≤ inodeSize img (L.recordAt p) := by
    rw [hin.size]
    omega
  obtain ⟨lastdr, hlastdr, hsum, hstring, hino⟩ := h.lastSlot_one hin hof hpn hdir hq hlast
  have hmem : last ∈ pn.children := List.mem_of_getLast? hlast
  obtain ⟨hvalid, hshort⟩ := hr.names _ hmem
  have hcstr : cstr (bytesAt img (lastSlot img (L.recordAt p) (L.extentAt p) + 4) 252) =
      some last.1 := by
    rw [hlastdr]
    exact hstring.cstr_bytesAt hvalid.zeroFree hshort
  have hreads : RemovalReads img (L.recordAt p) (L.extentAt p) name := fun _ _ =>
    .inr ⟨_, hcstr⟩
  rcases removeDentry_cases hreads with ⟨hnone, _⟩ | ⟨d, x, hsome, hcases⟩
  · rw [hnone] at hfind
    cases hfind
  · rw [hfind] at hsome
    obtain ⟨rfl, rfl⟩ := Prod.mk.inj (Option.some.inj hsome)
    obtain ⟨slot, hslot⟩ : ∃ slot : Int, L.blockAt q + 256 * (j + 2 : Nat) = slot := ⟨_, rfl⟩
    have hge : 4096 * (L.data : Int) ≤ slot := by omega
    rcases hcases with ⟨hx, heq⟩ | ⟨s, img₁, hs, himg₁, heq⟩
    · refine ⟨_, heq, ?_⟩
      rw [hslot]
      refine GapClosed.of_setSize hp hge (fun _ _ => rfl) hsize fun hne => ?_
      rw [hnum] at hx
      omega
    · rw [hcstr] at hs
      obtain rfl := Option.some.inj hs
      rw [hlastdr, hslot] at himg₁
      refine ⟨_, heq, ?_⟩
      rw [hslot]
      refine GapClosed.of_setSize hp hge ?_ hsize fun hne => ?_
      · rw [himg₁]
        exact fun y hy => copiedDentry_apply hshort hy
      · have hlastdr' : slot + 256 ≤ lastdr ∨ lastdr + 256 ≤ slot := by omega
        rw [himg₁]
        obtain ⟨hstring', hino'⟩ := copiedDentry img (v := dentryIno (setDentryName img slot last.1) lastdr) hshort hlastdr'
        exact ⟨hstring', hshort, hino'.trans hino⟩

end Tree

/-! ## The calls -/

namespace Nodes

variable {rest : List (Name × Nat)}

/-- The inodes in use without the removed one. -/
theorem isSome_unlinked (hpn : nodes p = some pn) :
    (nodes.unlinked p pn rest i k).isSome = (decide (k ≠ i) && (nodes k).isSome) := by
  by_cases hk : k = i
  · subst hk
    rw [unlinked_gone]
    simp
  · by_cases hkp : k = p
    · subst hkp
      rw [unlinked_parent hk, hpn]
      simp [hk]
    · rw [unlinked_other hk hkp]
      simp [hk]

/-- The extents of the nodes without the removed one. -/
theorem extents_unlinked {e : Nat × Nat} (hpn : nodes p = some pn) :
    (∃ k nd', nodes.unlinked p pn rest i k = some nd' ∧ e ∈ nd'.extents) ↔
      ∃ k nd', k ≠ i ∧ nodes k = some nd' ∧ e ∈ nd'.extents := by
  constructor
  · rintro ⟨k, nd', hk, he⟩
    rcases unlinked_cases hk with ⟨hki, ⟨rfl, rfl⟩ | ⟨_, hold⟩⟩
    · exact ⟨k, pn, hki, hpn, he⟩
    · exact ⟨k, nd', hki, hold, he⟩
  · rintro ⟨k, nd', hki, hk, he⟩
    by_cases hkp : k = p
    · subst hkp
      rw [hpn] at hk
      cases hk
      exact ⟨k, _, unlinked_parent hki, he⟩
    · exact ⟨k, nd', by rw [unlinked_other hki hkp, hk], he⟩

end Nodes

theorem Tree.links_pos (h : Tree L nodes) (hpn : nodes p = some pn) (hdir : sIsDir pn.mode) :
    0 < pn.links := by
  obtain ⟨r, hr, _⟩ := h.directory p pn hpn hdir
  rw [hr.links, hr.length_entries]
  omega

/-- The entries that are left when the last one has taken the place of the removed one. -/
theorem Tree.fillGap_perm (h : Tree L nodes) (hpn : nodes p = some pn) (hdir : sIsDir pn.mode)
    (hj : j < pn.children.length) (hjedge : pn.children[j] = (name, i))
    (hlast : pn.children.getLast? = some last) :
    (fillGap pn.children j last).Perm (pn.children.erase (name, i)) := by
  obtain ⟨r, hr, _⟩ := h.directory p pn hpn hdir
  rw [← hjedge, hr.nodup.of_map.erase_getElem]
  exact FileSystem.fillGap_perm hj hlast

namespace Consistent

variable {t : Target} {stale : Nat → UInt8} {after : Image → Image}

section Removed

variable (h : Consistent L img nodes) (hnd : nodes i = some nd) (hpn : nodes p = some pn)
  (hdir : sIsDir pn.mode) (hedge : nodes.Edge p name i) (hempty : ∀ n k, ¬ nodes.Edge i n k)
include h hnd hpn hdir hedge hempty

/-- The image is consistent when the inode and its block are free and the gap is closed. -/
theorem removed (hafter : HeadUpdate L after) (hq : pn.extents = [(q, 1)])
    (hj : j < pn.children.length) (hjedge : pn.children[j] = (name, i))
    (hlast : pn.children.getLast? = some last)
    (hgap : GapClosed L img' (L.released after nd.blocks (L.freedInode img i)) p
      (L.blockAt q + 256 * (j + 2 : Nat)) (j + 1 = pn.children.length) last)
    (hlinks : inodeLinks img' (L.recordAt p) =
      inodeLinks (L.released after nd.blocks (L.freedInode img i)) (L.recordAt p) - 1) :
    Consistent L img' (nodes.unlinked p pn (fillGap pn.children j last) i) ∧
      L.KeepsOthers img' img p := by
  have hwf := h.wellFormed
  have hhead := hgap.head (by have := L.blockAt_ge q; omega)
  have hbits := L.bits_ge
  have hperm := h.tree.fillGap_perm hpn hdir hj hjedge hlast
  refine ⟨⟨h.tree.unlinked hpn hdir hedge hempty hperm, h.tree.holds_unlinked
    (WellFormed.released_hold hwf hnd hafter) hpn hdir hq hlinks hj hgap, ?_, ?_⟩, ?_⟩
  · intro k hk
    rw [hhead.inodeBit hk, released_inodeBit hafter hk, Layout.freedInode,
      bitSet_setFreeInodesCount L.inodeMapAt_ge, bitSet_modify, Nodes.isSome_unlinked hpn,
      h.inodeBits k hk]
    by_cases hki : k = i
    · simp [hki]
    · simp [hki]
  · intro c hc
    rw [hhead.dataBit hc, released_dataBit hafter, Layout.freedInode_dataBit (hwf.inodeBit hnd).1,
      Bool.and_eq_true, h.dataBits c hc, decide_eq_true_eq, Nodes.extents_unlinked hpn,
      (h.tree.small i nd hnd).mem_blocks]
    constructor
    · rintro ⟨⟨k, nd', hk, he⟩, hfree⟩
      refine ⟨k, nd', ?_, hk, he⟩
      rintro rfl
      rw [hnd] at hk
      cases hk
      exact hfree he
    · rintro ⟨k, nd', hki, hk, he⟩
      exact ⟨⟨k, nd', hk, he⟩, fun he' => hki (h.tree.apart k i nd' nd _ hk hnd he he')⟩
  · intro x hlo hhi hx
    have hge := L.blockAt_ge_data q
    rw [hgap.keeps x hx (by omega), WellFormed.released_freedInode_sameTail hwf hnd hafter x hlo]

end Removed

section Calls

variable (h : Consistent L img nodes) (hi : nodes.resolve (t.dirs ++ [t.name]) = (i : Int))
include h hi

/-- The entry of a found path, by its place among the others. -/
theorem target_entry :
    ∃ (p : Nat) (pn : Node) (q j : Nat) (last : Name × Nat), nodes.resolve t.dirs = p ∧
      nodes p = some pn ∧ sIsDir pn.mode ∧ nodes.Edge p t.name i ∧ pn.extents = [(q, 1)] ∧
      pn.children[j]? = some (t.name, i) ∧ pn.children.getLast? = some last := by
  obtain ⟨p, pn, hp, hpn, hdir, hl⟩ := WellFormed.parent_of_resolve h.wellFormed hi
  have hedge := (h.tree.lookup_eq_some ⟨t.name_valid.ne_dot, t.name_valid.ne_dotDot⟩).mp hl
  obtain ⟨q, hq, _, _⟩ := h.tree.exists_block hpn hdir
  obtain ⟨j, hj⟩ := List.getElem?_of_mem ((Nodes.edge_iff hpn).mp hedge)
  have hne : pn.children ≠ [] := by
    rintro hnil
    rw [hnil] at hj
    cases hj
  exact ⟨p, pn, q, j, _, hp, hpn, hdir, hedge, hq, hj, List.getLast?_eq_some_getLast hne⟩

variable (hnd : nodes i = some nd) (hlen : t.path.length < 100)
include hnd hlen

/-- `a1fs_rmdir` of a directory without entries. -/
theorem rmdir (hbuf : t.dirs ≠ [] → BufferReads stale t.dirs) (hlinks : nd.links = 2)
    (hnddir : sIsDir nd.mode) :
    ∃ (img' : Image) (p : Nat) (pn : Node) (rest : List (Name × Nat)),
      a1fsRmdir img t.path stale = .ok (0, img') ∧ nodes.resolve t.dirs = p ∧
      nodes p = some pn ∧ sIsDir pn.mode ∧ nodes.Edge p t.name i ∧ (∀ n k, ¬ nodes.Edge i n k) ∧
      rest.Perm (pn.children.erase (t.name, i)) ∧
      Consistent L img' (nodes.unlinked p pn rest i) ∧ L.KeepsOthers img' img p := by
  obtain ⟨p, pn, q, j, last, hp, hpn, hdir, hedge, hq, hget, hlast⟩ := h.target_entry hi
  obtain ⟨hj, hjedge⟩ := List.getElem?_eq_some_iff.mp hget
  have hwf := h.wellFormed
  have hplt := (h.tree.small p pn hpn).inode_lt
  have hempty : ∀ n k, ¬ nodes.Edge i n k := by
    intro n k he
    obtain ⟨r, hr, _⟩ := h.tree.directory i nd hnd hnddir
    have hcount := hr.length_entries
    have hmem := List.length_pos_of_mem ((Nodes.edge_iff hnd).mp he)
    have hsame := hr.links
    omega
  obtain ⟨R, hR⟩ : ∃ R, L.released id nd.blocks (L.freedInode img i) = R := ⟨_, rfl⟩
  have hold := WellFormed.released_hold hwf hnd (L := L) headUpdate_id
  rw [hR] at hold
  have hin := h.tree.inBlock (hold.nodeAt p pn hpn) hpn hdir hq
  obtain ⟨img₁, hremove, hgap, hsame⟩ := h.tree.removeDentry_one hin hold.of hpn hdir hq hj
    (congrArg Prod.fst hjedge) hlast
  have hshort : last.1.length < 252 := by
    obtain ⟨r, hr, _⟩ := h.tree.directory p pn hpn hdir
    exact (hr.names _ (List.mem_of_getLast? hlast)).2
  have hrun := WellFormed.rmdir_run hwf hi hnd hlen hbuf hp hpn hlinks
  rw [hR, hremove, ok_bind] at hrun
  refine ⟨setLinks img₁ (L.recordAt p) (inodeLinks img₁ (L.recordAt p) - 1), p, pn,
    fillGap pn.children j last, hrun, hp, hpn, hdir, hedge, hempty,
    h.tree.fillGap_perm hpn hdir hj hjedge hlast, ?_⟩
  refine h.removed hnd hpn hdir hedge hempty headUpdate_id hq hj hjedge hlast ?_ ?_
  · rw [hR]
    exact hgap.setLinks_after hplt (by have := L.blockAt_ge_data q; omega) hshort
  · rw [hR, ← hsame]
    refine GapClosed.inodeLinks_setLinks ?_
    rw [hsame, (hold.nodeAt p pn hpn).links]
    exact h.tree.links_pos hpn hdir

/-- `a1fs_unlink` of a file in the root directory. -/
theorem unlink (hdirs : t.dirs = []) (hfile : ¬ sIsDir nd.mode) :
    ∃ (img' : Image) (pn : Node) (rest : List (Name × Nat)),
      a1fsUnlink img t.path stale = .ok (0, img') ∧ nodes 0 = some pn ∧ sIsDir pn.mode ∧
      nodes.Edge 0 t.name i ∧ (∀ n k, ¬ nodes.Edge i n k) ∧
      rest.Perm (pn.children.erase (t.name, i)) ∧
      Consistent L img' (nodes.unlinked 0 pn rest i) ∧ L.KeepsOthers img' img 0 := by
  obtain ⟨p, pn, q, j, last, hp, hpn, hdir, hedge, hq, hget, hlast⟩ := h.target_entry hi
  obtain ⟨hj, hjedge⟩ := List.getElem?_eq_some_iff.mp hget
  obtain rfl : p = 0 := by
    rw [hdirs, Nodes.resolve] at hp
    omega
  have hwf := h.wellFormed
  have hplt := (h.tree.small 0 pn hpn).inode_lt
  have hempty : ∀ n k, ¬ nodes.Edge i n k := by
    intro n k he
    have hmem := Node.mem_children ((Nodes.edge_iff hnd).mp he)
    rw [(h.tree.small i nd hnd).file hfile] at hmem
    cases hmem
  obtain ⟨R, hR⟩ : ∃ R, L.released countBlock nd.blocks (L.freedInode img i) = R := ⟨_, rfl⟩
  have hold := WellFormed.released_hold hwf hnd (L := L) headUpdate_count
  rw [hR] at hold
  have hstray : L.strayAt 0 = L.recordAt 0 := by
    unfold Layout.strayAt Layout.recordAt
    omega
  have hin := (h.tree.inBlock (hold.nodeAt 0 pn hpn) hpn hdir hq).setLinks
    (v := inodeLinks R (L.recordAt 0) - 1) (h.tree.ok hpn) (h.tree.length_entries hpn) hplt
  have hof : L.Of (setLinks R (L.recordAt 0) (inodeLinks R (L.recordAt 0) - 1)) :=
    ((Layout.SameHead.refl L R).setLinks (L.recordAt_ge 0)).of hold.of
  obtain ⟨img₁, hremove, hgap, hsame⟩ := h.tree.removeDentry_one hin hof hpn hdir hq hj
    (congrArg Prod.fst hjedge) hlast
  have hbuf : t.dirs ≠ [] → BufferReads stale t.dirs := fun hne => absurd hdirs hne
  have hrun := WellFormed.unlink_run hwf hi hnd hlen hbuf hp hpn
  rw [Layout.unlinked, hR, hstray, hremove, ok_bind] at hrun
  refine ⟨img₁, pn, fillGap pn.children j last, hrun, hpn, hdir, hedge, hempty,
    h.tree.fillGap_perm hpn hdir hj hjedge hlast, ?_⟩
  refine h.removed hnd hpn hdir hedge hempty headUpdate_count hq hj hjedge hlast ?_ ?_
  · rw [hR]
    exact hgap.setLinks_before
  · rw [hR, hsame]
    refine GapClosed.inodeLinks_setLinks ?_
    rw [(hold.nodeAt 0 pn hpn).links]
    exact h.tree.links_pos hpn hdir

end Calls

end Consistent

end UoftOs.FileSystem
