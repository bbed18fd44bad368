import UoftOs.FileSystem.Consistent

/-!
# New entries in a consistent image

When the least clear bits stand in the first bytes of the bitmaps, `a1fs_mkdir` and
`a1fs_create` store the node of the new inode and one more entry of its parent, and
nothing else that a node stands in.
-/

namespace UoftOs.FileSystem

open Lib.ByteMemory Lib.NamedTree

variable {L : Layout} {img img' : Image} {nodes : Nodes} {nd pn : Node}
  {i p b q mode links size extents : Nat} {name : Name} {slot : Int}

theorem uint32_natCast {n : Nat} (h : n < 4294967296) : uint32 n = n := by
  unfold uint32
  omega

theorem uint64_natCast {n : Nat} (h : n < 18446744073709551616) : uint64 n = n := by
  unfold uint64
  omega

namespace Layout

/-! ## The records -/

/-- The fields of a new record. -/
theorem putRecord_fields (L : Layout) (img : Image) (hmode : uint32 mode = mode) (hlinks : links < 4294967296)
    (hsize : size < 18446744073709551616) (hi : i < 2147483648) (hext : extents < 2147483648) :
    inodeMode (L.putRecord img i mode links size extents) (L.recordAt i) = mode ∧
      inodeLinks (L.putRecord img i mode links size extents) (L.recordAt i) = links ∧
      inodeSize (L.putRecord img i mode links size extents) (L.recordAt i) = size ∧
      inoNumber (L.putRecord img i mode links size extents) (L.recordAt i) = i ∧
      extentCount (L.putRecord img i mode links size extents) (L.recordAt i) = extents := by
  unfold putRecord
  refine ⟨?_, ?_, ?_, ?_, ?_⟩
  · simp (disch := omega) only [inodeMode, setMode, setLinks, setSize, setInoNumber,
      setExtentCount, u32_set32_of_disjoint, u32_set64_of_disjoint, u32_set32_self]
    exact hmode
  · simp (disch := omega) only [inodeLinks, setMode, setLinks, setSize, setInoNumber,
      setExtentCount, u32_set32_of_disjoint, u32_set64_of_disjoint, u32_set32_self]
    exact uint32_natCast hlinks
  · simp (disch := omega) only [inodeSize, setMode, setLinks, setSize, setInoNumber,
      setExtentCount, u64_set32_of_disjoint, u64_set64_self]
    exact uint64_natCast hsize
  · simp (disch := omega) only [inoNumber, i32, setMode, setLinks, setSize, setInoNumber,
      setExtentCount, u32_set32_of_disjoint, u32_set32_self]
    rw [int32_uint32, int32_of_bounds (by omega) (by omega)]
  · simp (disch := omega) only [extentCount, i32, setExtentCount, u32_set32_self]
    rw [int32_uint32, int32_of_bounds (by omega) (by omega)]

/-- The fields of the parent's record. -/
theorem growParent_fields (L : Layout) (img : Image) (p : Nat)
    (hlinks : inodeLinks img (L.recordAt p) + 1 < 4294967296)
    (hsize : inodeSize img (L.recordAt p) + 256 < 18446744073709551616) :
    inodeMode (L.growParent img p) (L.recordAt p) = inodeMode img (L.recordAt p) ∧
      inodeLinks (L.growParent img p) (L.recordAt p) = inodeLinks img (L.recordAt p) + 1 ∧
      inodeSize (L.growParent img p) (L.recordAt p) = inodeSize img (L.recordAt p) + 256 ∧
      inoNumber (L.growParent img p) (L.recordAt p) = inoNumber img (L.recordAt p) ∧
      extentCount (L.growParent img p) (L.recordAt p) = extentCount img (L.recordAt p) := by
  unfold growParent
  generalize inodeLinks img (L.recordAt p) = oldLinks at *
  generalize inodeSize img (L.recordAt p) = oldSize at *
  refine ⟨?_, ?_, ?_, ?_, ?_⟩
  · simp (disch := omega) only [inodeMode, setLinks, setSize, u32_set32_of_disjoint,
      u32_set64_of_disjoint]
  · simp (disch := omega) only [inodeLinks, setLinks, u32_set32_self]
    exact uint32_natCast (n := oldLinks + 1) hlinks
  · simp (disch := omega) only [inodeSize, setLinks, setSize, u64_set32_of_disjoint, u64_set64_self]
    exact uint64_natCast (n := oldSize + 256) hsize
  · simp (disch := omega) only [inoNumber, i32, setLinks, setSize, u32_set32_of_disjoint,
      u32_set64_of_disjoint]
  · simp (disch := omega) only [extentCount, i32, setLinks, setSize, u32_set32_of_disjoint,
      u32_set64_of_disjoint]

theorem putExtent_fields (L : Layout) (img : Image) (i : Nat) (hb : b < 4294967296) :
    extentStart (L.putExtent img i b) (L.extentAt i) (0 : Nat) = b ∧
      extentLength (L.putExtent img i b) (L.extentAt i) (0 : Nat) = 1 := by
  have hzero : L.extentAt i + 8 * ((0 : Nat) : Int) = L.extentAt i + 8 * 0 := rfl
  rw [extentStart, extentLength, hzero]
  unfold putExtent
  constructor
  · simp (disch := omega) only [setExtentStart, setExtentLength, u32_set32_of_disjoint,
      u32_set32_self]
    exact uint32_natCast hb
  · simp (disch := omega) only [setExtentStart, setExtentLength, u32_set32_self]
    rfl

end Layout

/-- A node's record in an image that agrees with another on it. -/
theorem record_congr (h : AgreeOn img' img (L.recordAt i) (L.recordAt i + 64)) :
    inodeMode img' (L.recordAt i) = inodeMode img (L.recordAt i) ∧
      inodeLinks img' (L.recordAt i) = inodeLinks img (L.recordAt i) ∧
      inodeSize img' (L.recordAt i) = inodeSize img (L.recordAt i) ∧
      inoNumber img' (L.recordAt i) = inoNumber img (L.recordAt i) ∧
      extentCount img' (L.recordAt i) = extentCount img (L.recordAt i) :=
  ⟨u32_congr (h.mono (by omega) (by omega)), u32_congr (h.mono (by omega) (by omega)),
    u64_congr (h.mono (by omega) (by omega)), i32_congr (h.mono (by omega) (by omega)),
    i32_congr (h.mono (by omega) (by omega))⟩

/-- An entry in an image that agrees with another on its slot. -/
theorem dentry_congr {d : Int} (h : AgreeOn img' img d (d + 256)) (hname : name.length < 252)
    (hstring : StringAt img (d + 4) name) :
    StringAt img' (d + 4) name ∧ dentryIno img' d = dentryIno img d :=
  ⟨hstring.congr (h.mono (by omega) (by omega)), u32_congr (h.mono (by omega) (by omega))⟩

/-! ## The new directory -/

namespace Layout

/-- Records end before the data. -/
theorem recordAt_lt (L : Layout) (hi : i < L.inodes) :
    L.recordAt i + 64 ≤ 4096 * (L.extents : Int) := by
  have := L.records
  unfold recordAt
  omega

/-- Extent blocks end before the data. -/
theorem extentAt_lt (L : Layout) (hi : i < L.inodes) :
    L.extentAt i + 4096 ≤ 4096 * (L.data : Int) := by
  have := L.extentBlocks
  unfold extentAt
  omega

theorem blockAt_ge_data (L : Layout) (b : Nat) : 4096 * (L.data : Int) ≤ L.blockAt b := by
  unfold blockAt
  omega

/-- The parts of the image that `linkedDirectory` leaves alone. -/
theorem linkedDirectory_apply {x : Int} (hs : L.newSlot img p = slot) (hname : name.length < 252)
    (hp : x < L.recordAt p ∨ L.recordAt p + 64 ≤ x) (hi : x < L.recordAt i ∨ L.recordAt i + 64 ≤ x)
    (he : x < L.extentAt i ∨ L.extentAt i + 8 ≤ x) (hb : x < L.blockAt b ∨ L.blockAt b + 512 ≤ x)
    (hslot : x < slot ∨ slot + 256 ≤ x) :
    L.linkedDirectory img p name mode i b x = img x := by
  unfold linkedDirectory
  rw [hs, putDentry_apply hname hslot, putDots_apply hb, putRecord_apply hi, putExtent_apply he,
    growParent_apply hp]

theorem linkedFile_apply {x : Int} (hs : L.newSlot img p = slot) (hname : name.length < 252)
    (hp : x < L.recordAt p ∨ L.recordAt p + 64 ≤ x) (hi : x < L.recordAt i ∨ L.recordAt i + 64 ≤ x)
    (hslot : x < slot ∨ slot + 256 ≤ x) :
    L.linkedFile img p name mode i x = img x := by
  unfold linkedFile
  rw [hs, putDentry_apply hname hslot, putRecord_apply hi, growParent_apply hp]

/-- The entries of a new directory. -/
theorem putDots_slots (L : Layout) (img : Image) (b : Nat) (hi : i < 4294967296) (hp : p < 4294967296) :
    (StringAt (L.putDots img i p b) (L.blockAt b + 4) dot ∧
      dentryIno (L.putDots img i p b) (L.blockAt b) = i) ∧
    StringAt (L.putDots img i p b) (L.blockAt b + 256 + 4) dotDot ∧
      dentryIno (L.putDots img i p b) (L.blockAt b + 256) = p := by
  have hfirst : AgreeOn (L.putDots img i p b) (putDentry img (L.blockAt b) i dot) (L.blockAt b)
      (L.blockAt b + 256) := by
    intro x hlo hhi
    unfold putDots
    exact putDentry_apply (by decide) (by omega)
  obtain ⟨hname, hino⟩ := dentry_congr hfirst (by decide) stringAt_putDentry
  refine ⟨⟨hname, ?_⟩, stringAt_putDentry, ?_⟩
  · rw [hino, dentryIno_putDentry]
    exact uint32_natCast hi
  · unfold putDots
    rw [dentryIno_putDentry]
    exact uint32_natCast hp

variable (hs : L.newSlot img p = slot) (hi : i < L.inodes) (hname : name.length < 252)
  (hslot : 4096 * (L.data : Int) ≤ slot)
include hs hi hname hslot

/-- The new directory stands in the image. -/
theorem emptyDirectory_at (hp : p < L.inodes) (hmode : uint32 mode = mode) (hb : b < 4294967296)
    (hblock : slot + 256 ≤ L.blockAt b ∨ L.blockAt b + 512 ≤ slot) :
    (Node.emptyDirectory mode i p b).At L (L.linkedDirectory img p name mode i b) i := by
  have hinodes := L.inodes_lt
  have hrecord := L.recordAt_lt hi
  have hextents := L.extentBlocks
  have hextent := L.extentAt_lt hi
  have hdata := L.blockAt_ge_data b
  have hext : L.extentAt i = 4096 * (L.extents + i) := rfl
  have hi32 : i < 4294967296 := by omega
  have hp32 : p < 4294967296 := by omega
  unfold linkedDirectory
  rw [hs]
  clear hs
  extract_lets _ grown extended recorded dotted
  have hdotted : ∀ x, x < L.blockAt b ∨ L.blockAt b + 512 ≤ x → dotted x = recorded x :=
    fun _ hx => putDots_apply hx
  have hrecorded : ∀ x, x < L.recordAt i ∨ L.recordAt i + 64 ≤ x → recorded x = extended x :=
    fun _ hx => putRecord_apply hx
  have hregion : AgreeOn (putDentry dotted slot i name) recorded (L.recordAt i)
      (L.recordAt i + 64) := by
    intro x hlo hhi
    rw [putDentry_apply hname (by omega), hdotted x (by omega)]
  have hextRegion : AgreeOn (putDentry dotted slot i name) extended (L.extentAt i)
      (L.extentAt i + 8) := by
    intro x hlo hhi
    rw [putDentry_apply hname (by omega), hdotted x (by omega), hrecorded x (by omega)]
  have hdots : AgreeOn (putDentry dotted slot i name) dotted (L.blockAt b) (L.blockAt b + 512) := by
    intro x hlo hhi
    exact putDentry_apply hname (by omega)
  obtain ⟨hmode', hlinks, hsize, hnumber, hcount⟩ := record_congr hregion
  obtain ⟨fmode, flinks, fsize, fnumber, fcount⟩ := L.putRecord_fields extended hmode
    (show 2 < 4294967296 by decide) (show 512 < 18446744073709551616 by decide)
    (show i < 2147483648 by omega) (show 1 < 2147483648 by decide)
  obtain ⟨⟨hdot, hdotIno⟩, hdotDot, hdotDotIno⟩ := L.putDots_slots recorded b hi32 hp32
  constructor
  case mode => rw [hmode']; exact fmode
  case links => rw [hlinks]; exact flinks
  case size => rw [hsize]; exact fsize
  case number => rw [hnumber]; exact fnumber
  case count => rw [hcount]; exact fcount
  case extents =>
      intro k hk
      obtain rfl : k = 0 := Nat.lt_one_iff.mp hk
      obtain ⟨hstart, hlength⟩ := L.putExtent_fields grown i hb
      have hfields : extentStart (putDentry dotted slot i name) (L.extentAt i) (0 : Nat) = b ∧
          extentLength (putDentry dotted slot i name) (L.extentAt i) (0 : Nat) = 1 := by
        constructor
        · rw [← hstart]
          exact u32_congr (hextRegion.mono (by omega) (by omega))
        · rw [← hlength]
          exact u32_congr (hextRegion.mono (by omega) (by omega))
      exact hfields
  case slots =>
      intro k hk
      have htwo : k < 2 := hk
      have hslotAt : (Node.emptyDirectory mode i p b).slotAt L k = L.blockAt b + 256 * (k : Int) :=
        Node.slotAt_one rfl (by omega)
      rw [hslotAt]
      obtain rfl | rfl : k = 0 ∨ k = 1 := by omega
      · rw [show L.blockAt b + 256 * ((0 : Nat) : Int) = L.blockAt b from Int.add_zero _]
        obtain ⟨hstring, hino⟩ := dentry_congr (hdots.mono (le_refl _) (by omega)) (by decide) hdot
        exact ⟨hstring, hino.trans hdotIno⟩
      · rw [show L.blockAt b + 256 * ((1 : Nat) : Int) = L.blockAt b + 256 from rfl]
        obtain ⟨hstring, hino⟩ :=
          dentry_congr (hdots.mono (by omega) (by omega)) (by decide) hdotDot
        exact ⟨hstring, hino.trans hdotDotIno⟩

/-- The new file stands in the image. -/
theorem emptyFile_at (hmode : uint32 mode = mode) :
    (Node.emptyFile mode).At L (L.linkedFile img p name mode i) i := by
  have hinodes := L.inodes_lt
  have hrecord := L.recordAt_lt hi
  have hextents := L.extentBlocks
  unfold linkedFile
  rw [hs]
  clear hs
  extract_lets _ grown recorded
  have hregion : AgreeOn (putDentry recorded slot i name) recorded (L.recordAt i)
      (L.recordAt i + 64) := by
    intro x hlo hhi
    exact putDentry_apply hname (by omega)
  obtain ⟨hmode', hlinks, hsize, hnumber, hcount⟩ := record_congr hregion
  obtain ⟨fmode, flinks, fsize, fnumber, fcount⟩ := L.putRecord_fields grown hmode
    (show 1 < 4294967296 by decide) (show 0 < 18446744073709551616 by decide)
    (show i < 2147483648 by omega) (show 0 < 2147483648 by decide)
  constructor
  case mode => rw [hmode']; exact fmode
  case links => rw [hlinks]; exact flinks
  case size => rw [hsize]; exact fsize
  case number => rw [hnumber]; exact fnumber
  case count => rw [hcount]; exact fcount
  case extents => exact fun k hk => absurd hk (Nat.not_lt_zero k)
  case slots => exact fun k hk => absurd hk (Nat.not_lt_zero k)

end Layout

/-! ## The parent -/

namespace Tree

section Parent

variable (h : Tree L nodes) (hpn : nodes p = some pn) (hdir : sIsDir pn.mode)
  (hat : pn.At L img p)
include h hpn hdir hat

omit hat in
/-- The block of a directory has room behind the entries. -/
theorem directory_block : ∃ q, pn.extents = [(q, 1)] ∧ q < 8 ∧ q < L.blocks ∧
    pn.size = 256 * pn.entries.length ∧ pn.links = pn.entries.length ∧ pn.entries.length ≤ 10 := by
  obtain ⟨q, hq, hlt, hle⟩ := h.exists_block hpn hdir
  obtain ⟨r, hr, _⟩ := h.directory p pn hpn hdir
  exact ⟨q, hq, hlt, hle, hr.size, hr.links, h.length_entries hpn⟩

/-- The slot of the new entry. -/
theorem newSlot_one (hof : L.Of img) (hq : pn.extents = [(q, 1)]) :
    L.newSlot img p = L.blockAt q + 256 * pn.entries.length := by
  obtain ⟨_, _, _, _, hsize, _, hlen⟩ := h.directory_block hpn hdir
  rw [Layout.newSlot_eq hat (h.ok hpn) hof (by rw [hq]; exact List.cons_ne_nil _ _),
    Node.lastBlock_one hq, hsize]
  omega

/-- The parent stands in an image that has its grown record and the new entry. -/
theorem grown_at (hq : pn.extents = [(q, 1)])
    (hrecord : AgreeOn img' (L.growParent img p) (L.recordAt p) (L.recordAt p + 64))
    (hextent : AgreeOn img' img (L.extentAt p) (L.extentAt p + 8))
    (hblock : AgreeOn img' img (L.blockAt q) (L.blockAt q + 256 * pn.entries.length))
    (hname : StringAt img' (L.blockAt q + 256 * pn.entries.length + 4) name)
    (hino : dentryIno img' (L.blockAt q + 256 * pn.entries.length) = i) :
    (pn.grown name i).At L img' p := by
  obtain ⟨_, _, _, _, hsize, hlinks, hlen⟩ := h.directory_block hpn hdir
  obtain ⟨gmode, glinks, gsize, gnumber, gcount⟩ := L.growParent_fields img p
    (by rw [hat.links, hlinks]; omega) (by rw [hat.size, hsize]; omega)
  obtain ⟨rmode, rlinks, rsize, rnumber, rcount⟩ := record_congr hrecord
  constructor
  case mode => rw [rmode, gmode, hat.mode]; rfl
  case links => rw [rlinks, glinks, hat.links]; rfl
  case size => rw [rsize, gsize, hat.size]; rfl
  case number => rw [rnumber, gnumber, hat.number]
  case count => rw [rcount, gcount, hat.count]; rfl
  case extents =>
      intro k hk
      refine hat.extents_congr (hextent.mono (le_refl _) ?_) hk
      rw [hq, List.length_singleton]
      omega
  case slots =>
      intro k hk
      have hlast : k < pn.entries.length + 1 := by
        simpa [Node.grown] using hk
      have hslot : (pn.grown name i).slotAt L k = L.blockAt q + 256 * (k : Int) :=
        Node.slotAt_one hq (by omega)
      rw [hslot]
      rcases Nat.lt_succ_iff_lt_or_eq.mp hlast with hlt | rfl
      · have hget : (pn.grown name i).entries[k] = pn.entries[k] :=
          List.getElem_append_left hlt
        obtain ⟨hstring, hold⟩ := hat.slots k hlt
        rw [Node.slotAt_one hq (by omega)] at hstring hold
        have hshort := ((h.ok hpn).names _ (List.getElem_mem hlt)).2
        obtain ⟨hstring', hsame⟩ := dentry_congr (hblock.mono (by omega) (by omega)) hshort hstring
        rw [hget, hsame]
        exact ⟨hstring', hold⟩
      · have hget : (pn.grown name i).entries[pn.entries.length] = (name, i) := by
          simp [Node.grown]
        rw [hget]
        exact ⟨hname, hino⟩

end Parent

end Tree

/-! ## The tree with the new node -/

theorem Layout.recordAt_apart (h : i ≠ p) :
    L.recordAt i + 64 ≤ L.recordAt p ∨ L.recordAt p + 64 ≤ L.recordAt i := by
  unfold recordAt
  omega

theorem Layout.extentAt_apart (h : i ≠ p) :
    L.extentAt i + 4096 ≤ L.extentAt p ∨ L.extentAt p + 4096 ≤ L.extentAt i := by
  unfold extentAt
  omega

theorem Layout.blockAt_apart (h : b ≠ q) :
    L.blockAt b + 4096 ≤ L.blockAt q ∨ L.blockAt q + 4096 ≤ L.blockAt b := by
  unfold blockAt
  omega

namespace Tree

section Linked

variable (h : Tree L nodes) (hold : Holds L img nodes) (hpn : nodes p = some pn)
  (hdir : sIsDir pn.mode) (hname : name.length < 252) (hmode : uint32 mode = mode)
include h hold hpn hdir hname hmode

omit hname hmode in
/-- The nodes stand in an image that has the new node, the parent with its entry, and the
old bytes elsewhere. -/
theorem holds_linked {new : Node} (hnew : NewNode L nodes p i new) (hq : pn.extents = [(q, 1)])
    (hof : L.Of img') (hmade : new.At L img' i)
    (hparent : AgreeOn img' (L.growParent img p) (L.recordAt p) (L.recordAt p + 64))
    (hentry : StringAt img' (L.blockAt q + 256 * pn.entries.length + 4) name ∧
      dentryIno img' (L.blockAt q + 256 * pn.entries.length) = i)
    (hunused : ∀ j nd, nodes j = some nd → (b, 1) ∉ nd.extents)
    (hkeeps : ∀ x, (x < L.recordAt p ∨ L.recordAt p + 64 ≤ x) →
      (x < L.recordAt i ∨ L.recordAt i + 64 ≤ x) → (x < L.extentAt i ∨ L.extentAt i + 8 ≤ x) →
      (x < L.blockAt b ∨ L.blockAt b + 512 ≤ x) →
      (x < L.blockAt q + 256 * pn.entries.length ∨
        L.blockAt q + 256 * pn.entries.length + 256 ≤ x) → img' x = img x) :
    Holds L img' (nodes.linked p pn name i new) := by
  have hi := hnew.small.inode_lt
  have hp := (h.small p pn hpn).inode_lt
  have hat := hold.nodeAt p pn hpn
  have hlen := h.length_entries hpn
  have hqdata := L.blockAt_ge_data q
  have hbdata := L.blockAt_ge_data b
  have hextents := L.extentBlocks
  have htable := L.extents_lt
  have hrecord := L.recordAt_lt hi
  have hprecord := L.recordAt_lt hp
  have hextent := L.extentAt_lt hi
  have hpextent := L.extentAt_lt hp
  have hext : L.extentAt i = 4096 * (L.extents + i) := rfl
  have hpext : L.extentAt p = 4096 * (L.extents + p) := rfl
  have hne : p ≠ i := by
    rintro rfl
    rw [hnew.free] at hpn
    cases hpn
  have hbq : b ≠ q := by
    rintro rfl
    exact hunused p pn hpn (hq ▸ List.mem_singleton_self _)
  have hblocks := L.blockAt_apart hbq
  have hexts := L.extentAt_apart hne
  refine ⟨hof, fun j nd hnd => ?_⟩
  rcases Nodes.linked_cases hnd with ⟨rfl, rfl⟩ | ⟨hji, rfl, rfl⟩ | ⟨hji, hjp, hsame⟩
  · exact hmade
  · refine h.grown_at hpn hdir hat hq hparent ?_ ?_ hentry.1 hentry.2
    · intro x hlo hhi
      exact hkeeps x (by omega) (by omega) (by omega) (by omega) (by omega)
    · intro x hlo hhi
      exact hkeeps x (by omega) (by omega) (by omega) (by omega) (by omega)
  · have hj := (h.small j nd hsame).inode_lt
    have hjrecord := L.recordAt_lt hj
    have hjextent := L.extentAt_lt hj
    have hjext : L.extentAt j = 4096 * (L.extents + j) := rfl
    have hji' := L.recordAt_apart hji
    have hjp' := L.recordAt_apart hjp
    have hjexts := L.extentAt_apart hji
    refine h.at_congr hsame (hold.nodeAt j nd hsame) ?_ ?_ ?_
    · intro x hlo hhi
      exact hkeeps x (by omega) (by omega) (by omega) (by omega) (by omega)
    · intro x hlo hhi
      exact hkeeps x (by omega) (by omega) (by omega) (by omega) (by omega)
    · intro _ c hc x hlo hhi
      have hjlen := h.length_entries hsame
      have hcdata := L.blockAt_ge_data c
      have hcb : c ≠ b := by
        rintro rfl
        exact hunused j nd hsame (hc ▸ List.mem_singleton_self _)
      have hcq : c ≠ q := by
        rintro rfl
        exact hjp (h.apart j p nd pn (c, 1) hsame hpn (hc ▸ List.mem_singleton_self _)
          (hq ▸ List.mem_singleton_self _))
      have hcb' := L.blockAt_apart hcb
      have hcq' := L.blockAt_apart hcq
      exact hkeeps x (by omega) (by omega) (by omega) (by omega) (by omega)

/-- The nodes stand in the image with the new directory. -/
theorem holds_linkedDirectory (hunused : ∀ j nd, nodes j = some nd → (b, 1) ∉ nd.extents)
    (hnew : NewNode L nodes p i (Node.emptyDirectory mode i p b)) :
    Holds L (L.linkedDirectory img p name mode i b)
      (nodes.linked p pn name i (Node.emptyDirectory mode i p b)) := by
  have hi := hnew.small.inode_lt
  have hb := (hnew.small.mem_extents (List.mem_singleton_self _)).2.2.1
  have hp := (h.small p pn hpn).inode_lt
  have hat := hold.nodeAt p pn hpn
  obtain ⟨q, hq, _, _, _, _, hlen⟩ := h.directory_block hpn hdir
  have htable := L.extents_lt
  have hinodes := L.inodes_lt
  have hqdata := L.blockAt_ge_data q
  have hbdata := L.blockAt_ge_data b
  have hextents := L.extentBlocks
  have hprecord := L.recordAt_lt hp
  have hextent := L.extentAt_lt hi
  have hext : L.extentAt i = 4096 * (L.extents + i) := rfl
  have hne : p ≠ i := by
    rintro rfl
    rw [hnew.free] at hpn
    cases hpn
  have hbq : b ≠ q := by
    rintro rfl
    exact hunused p pn hpn (hq ▸ List.mem_singleton_self _)
  have hblocks := L.blockAt_apart hbq
  have hrecords := L.recordAt_apart hne
  obtain ⟨slot, hsl⟩ : ∃ slot : Int, L.blockAt q + 256 * pn.entries.length = slot := ⟨_, rfl⟩
  have hge : 4096 * (L.data : Int) ≤ slot := by omega
  have hinside : slot + 256 ≤ L.blockAt b ∨ L.blockAt b + 512 ≤ slot := by omega
  have htail : 4096 * (L.inodeTable : Int) ≤ slot := by omega
  have hb32 : b < 4294967296 := by omega
  have hi32 : i < 4294967296 := by omega
  have hs : L.newSlot img p = slot := (h.newSlot_one hpn hdir hat hold.of hq).trans hsl
  have hof : L.Of (L.linkedDirectory img p name mode i b) :=
    (Layout.linkedDirectory_head hname (hs ▸ htail)).of hold.of
  have hmade : (Node.emptyDirectory mode i p b).At L (L.linkedDirectory img p name mode i b) i :=
    Layout.emptyDirectory_at hs hi hname hge hp hmode hb32 hinside
  have hparent : AgreeOn (L.linkedDirectory img p name mode i b) (L.growParent img p)
      (L.recordAt p) (L.recordAt p + 64) := by
    unfold Layout.linkedDirectory
    rw [hs]
    clear hs
    intro x hlo hhi
    rw [putDentry_apply hname (by omega), Layout.putDots_apply (by omega),
      Layout.putRecord_apply (by omega), Layout.putExtent_apply (by omega)]
  have hentry : StringAt (L.linkedDirectory img p name mode i b) (slot + 4) name ∧
      dentryIno (L.linkedDirectory img p name mode i b) slot = i := by
    unfold Layout.linkedDirectory
    rw [hs]
    exact ⟨stringAt_putDentry, dentryIno_putDentry.trans (uint32_natCast hi32)⟩
  subst hsl
  exact h.holds_linked hold hpn hdir hnew hq hof hmade hparent hentry hunused
    fun x hx₁ hx₂ hx₃ hx₄ hx₅ => Layout.linkedDirectory_apply hs hname hx₁ hx₂ hx₃ hx₄ hx₅

/-- The nodes stand in the image with the new file. -/
theorem holds_linkedFile (hnew : NewNode L nodes p i (Node.emptyFile mode)) :
    Holds L (L.linkedFile img p name mode i)
      (nodes.linked p pn name i (Node.emptyFile mode)) := by
  have hi := hnew.small.inode_lt
  have hp := (h.small p pn hpn).inode_lt
  have hat := hold.nodeAt p pn hpn
  obtain ⟨q, hq, _⟩ := h.directory_block hpn hdir
  have htable := L.extents_lt
  have hinodes := L.inodes_lt
  have hqdata := L.blockAt_ge_data q
  have hextents := L.extentBlocks
  have hprecord := L.recordAt_lt hp
  have hne : p ≠ i := by
    rintro rfl
    rw [hnew.free] at hpn
    cases hpn
  have hrecords := L.recordAt_apart hne
  obtain ⟨slot, hsl⟩ : ∃ slot : Int, L.blockAt q + 256 * pn.entries.length = slot := ⟨_, rfl⟩
  have hge : 4096 * (L.data : Int) ≤ slot := by omega
  have htail : 4096 * (L.inodeTable : Int) ≤ slot := by omega
  have hi32 : i < 4294967296 := by omega
  have hs : L.newSlot img p = slot := (h.newSlot_one hpn hdir hat hold.of hq).trans hsl
  have hof : L.Of (L.linkedFile img p name mode i) :=
    (Layout.linkedFile_head hname (hs ▸ htail)).of hold.of
  have hmade : (Node.emptyFile mode).At L (L.linkedFile img p name mode i) i :=
    Layout.emptyFile_at hs hi hname hge hmode
  have hparent : AgreeOn (L.linkedFile img p name mode i) (L.growParent img p)
      (L.recordAt p) (L.recordAt p + 64) := by
    unfold Layout.linkedFile
    rw [hs]
    clear hs
    intro x hlo hhi
    rw [putDentry_apply hname (by omega), Layout.putRecord_apply (by omega)]
  have hentry : StringAt (L.linkedFile img p name mode i) (slot + 4) name ∧
      dentryIno (L.linkedFile img p name mode i) slot = i := by
    unfold Layout.linkedFile
    rw [hs]
    exact ⟨stringAt_putDentry, dentryIno_putDentry.trans (uint32_natCast hi32)⟩
  -- No node has the block behind the last one.
  have hunused : ∀ j nd, nodes j = some nd → (L.blocks, 1) ∉ nd.extents := fun j nd hnd he =>
    lt_irrefl _ ((h.small j nd hnd).mem_extents he).2.2.2
  subst hsl
  exact h.holds_linked hold hpn hdir hnew hq hof hmade hparent hentry hunused
    fun x hx₁ hx₂ _ _ hx₅ => Layout.linkedFile_apply hs hname hx₁ hx₂ hx₅

end Linked

end Tree

/-! ## The calls -/

/-- The inodes in use with the new one. -/
theorem Nodes.isSome_linked {k : Nat} (hpn : nodes p = some pn) (hne : p ≠ i) :
    (nodes.linked p pn name i nd k).isSome = (decide (k = i) || (nodes k).isSome) := by
  by_cases hk : k = i
  · subst hk
    rw [linked_new]
    simp
  · by_cases hkp : k = p
    · subst hkp
      rw [linked_parent hne, hpn]
      simp
    · rw [linked_other hk hkp]
      simp [hk]

/-- The extents of a tree with the new node. -/
theorem Nodes.extents_linked {e : Nat × Nat} (hfree : nodes i = none) (hpn : nodes p = some pn) :
    (∃ k nd', nodes.linked p pn name i nd k = some nd' ∧ e ∈ nd'.extents) ↔
      e ∈ nd.extents ∨ ∃ k nd', nodes k = some nd' ∧ e ∈ nd'.extents := by
  constructor
  · rintro ⟨k, nd', hk, he⟩
    rcases linked_cases hk with ⟨_, rfl⟩ | ⟨_, rfl, rfl⟩ | ⟨_, _, hold⟩
    · exact .inl he
    · exact .inr ⟨k, pn, hpn, he⟩
    · exact .inr ⟨k, nd', hold, he⟩
  · rintro (he | ⟨k, nd', hk, he⟩)
    · exact ⟨i, nd, linked_new, he⟩
    · have hki : k ≠ i := by
        rintro rfl
        rw [hfree] at hk
        cases hk
      by_cases hkp : k = p
      · subst hkp
        rw [hpn] at hk
        cases hk
        exact ⟨k, _, linked_parent hki, he⟩
      · exact ⟨k, nd', by rw [linked_other hki hkp, hk], he⟩

/-- The inode bitmap does not reach the data bitmap. -/
theorem LeastClear.modify_inodeMap (h : LeastClear img L.dataMapAt b) (hi : i < L.inodeBitCount) :
    LeastClear (modify img L.inodeMapAt i true) L.dataMapAt b :=
  h.congr fun _ _ => Layout.dataBit_modify_inodeMap hi

namespace Consistent

variable {t : Target} {stale : Nat → UInt8}

section Calls

variable (h : Consistent L img nodes) (hp : nodes.resolve t.dirs = (p : Int))
  (hpn : nodes p = some pn) (hdir : sIsDir pn.mode) (habsent : ∀ k, ¬ nodes.Edge p t.name k)
  (hlen : t.path.length < 100) (hbuf : BufferReads stale t.dirs)
  (hi : LeastClear img L.inodeMapAt i) (hi8 : i < 8 ∧ i < L.inodes)
include h hp hpn hdir habsent hlen hbuf hi hi8

/-- `a1fs_mkdir` with a free inode and a free block in the first bytes of the bitmaps. -/
theorem mkdir (hmode : sIsDir (mode ||| sIfDir) ∧ uint32 (mode ||| sIfDir : Nat) = mode ||| sIfDir)
    (hfree : ¬ (freeInodesCount img = 0 ∨ freeBlocksCount img = 0))
    (hb : LeastClear img L.dataMapAt b) (hb8 : b < 8 ∧ b < L.blocks) :
    ∃ img', a1fsMkdir img t.path mode stale = .ok (0, img') ∧ Consistent L img'
      (nodes.linked p pn t.name i (Node.emptyDirectory (mode ||| sIfDir) i p b)) := by
  obtain ⟨i', b', img₁, img₂, htake₁, htake₂, _, _, hold₂, hhead, hrun⟩ :=
    h.wellFormed.mkdir_run hp hpn hdir hlen hbuf hfree mode
  have hbits := L.bits_ge
  have hunused : ∀ j nd, nodes j = some nd → (b, 1) ∉ nd.extents := fun _ _ hnd =>
    h.unused_of_clear hb8.1 hb.2.1 hnd
  have hnew : NewNode L nodes p i (Node.emptyDirectory (mode ||| sIfDir) i p b) :=
    newNode_directory hmode.1 hi8 hb8 (h.free_of_clear hi8.1 hi.2.1) hunused
  have hname := t.name_length hlen
  have hshort : t.name.length < 252 := by omega
  have hne : p ≠ i := by
    rintro rfl
    rw [hnew.free] at hpn
    cases hpn
  rw [hi.takeFreeBit, Nat.mod_eq_of_lt hi8.1] at htake₁
  obtain ⟨rfl, rfl⟩ := Prod.mk.inj htake₁
  rw [(hb.modify_inodeMap (by omega)).takeFreeBit, Nat.mod_eq_of_lt hb8.1] at htake₂
  obtain ⟨rfl, rfl⟩ := Prod.mk.inj htake₂
  refine ⟨_, hrun, of_setFreeInodesCount (of_setFreeBlocksCount ⟨?_, ?_, ?_, ?_⟩)⟩
  · exact h.tree.linked hpn hdir hnew ⟨t.name_valid, hshort⟩ habsent
  · exact h.tree.holds_linkedDirectory hold₂ hpn hdir hshort hmode.2 hunused hnew
  · intro k hk
    rw [hhead.inodeBit hk, Layout.inodeBit_modify_dataMap hk, bitSet_modify,
      Nodes.isSome_linked hpn hne, h.inodeBits k hk]
    by_cases hki : k = i
    · simp [hki]
    · simp [hki]
  · intro c hc
    rw [hhead.dataBit hc, bitSet_modify, Layout.dataBit_modify_inodeMap (by omega),
      Nodes.extents_linked hnew.free hpn, ← h.dataBits c hc]
    by_cases hcb : c = b
    · simp [hcb, Node.emptyDirectory]
    · simp [hcb, Node.emptyDirectory]

/-- `a1fs_create` with a free inode in the first byte of the bitmap. -/
theorem create (hreg : sIsReg mode) (hmode : uint32 mode = mode)
    (hfree : ¬ (uint32 (freeInodesCount img - 1) = 0 ∨ freeBlocksCount img = 0)) :
    ∃ img', a1fsCreate img t.path mode stale = .ok (0, img') ∧ Consistent L img'
      (nodes.linked p pn t.name i (Node.emptyFile mode)) := by
  obtain ⟨i', img₁, htake, _, hold₁, hhead, hrun⟩ :=
    h.wellFormed.create_run hp hpn hdir hlen hbuf hreg hfree
  have hbits := L.bits_ge
  have hnew : NewNode L nodes p i (Node.emptyFile mode) :=
    newNode_file (not_sIsDir_of_sIsReg hreg) hi8 (h.free_of_clear hi8.1 hi.2.1)
  have hname := t.name_length hlen
  have hshort : t.name.length < 252 := by omega
  have hne : p ≠ i := by
    rintro rfl
    rw [hnew.free] at hpn
    cases hpn
  have hleast : LeastClear (setFreeInodesCount img (freeInodesCount img - 1)) L.inodeMapAt i :=
    hi.congr fun _ _ => bitSet_setFreeInodesCount L.inodeMapAt_ge
  rw [hleast.takeFreeBit, Nat.mod_eq_of_lt hi8.1] at htake
  obtain ⟨rfl, rfl⟩ := Prod.mk.inj htake
  refine ⟨_, hrun, ?_, ?_, ?_, ?_⟩
  · exact h.tree.linked hpn hdir hnew ⟨t.name_valid, hshort⟩ habsent
  · exact h.tree.holds_linkedFile hold₁ hpn hdir hshort hmode hnew
  · intro k hk
    rw [hhead.inodeBit hk, bitSet_modify, bitSet_setFreeInodesCount L.inodeMapAt_ge,
      Nodes.isSome_linked hpn hne, h.inodeBits k hk]
    by_cases hki : k = i
    · simp [hki]
    · simp [hki]
  · intro c hc
    rw [hhead.dataBit hc, Layout.dataBit_modify_inodeMap (by omega),
      bitSet_setFreeInodesCount L.dataMapAt_ge, Nodes.extents_linked hnew.free hpn,
      ← h.dataBits c hc]
    simp [Node.emptyFile]

end Calls

end Consistent

end UoftOs.FileSystem
