import UoftOs.FileSystem.Runs

/-!
# Where safe calls store

A safe call stores in the two counters of the superblock, in the bitmaps, in the inode
table and the extents, and in data blocks. So no run of safe calls stores outside of the
image, or in the other fields of the superblock.
-/

namespace UoftOs.FileSystem

open Lib.ByteMemory Lib.Transition

namespace Layout

/-- The addresses of no call: those before and behind the two counters in the block of the
superblock, and those behind the last data block. -/
def Foreign (L : Layout) (x : Int) : Prop :=
  x < 44 ∨ (52 ≤ x ∧ x < 4096) ∨ 4096 * ((L.data : Int) + L.blocks) ≤ x

/-- The images agree on the addresses of no call. -/
def Stays (L : Layout) (img' img : Image) : Prop := ∀ x, L.Foreign x → img' x = img x

end Layout

variable {L : Layout} {img img' img'' : Image} {nodes : Nodes} {nd pn : Node} {i p q b mode n : Nat}
  {name : Name} {bs : List Nat} {x v : Int} {t : Target} {stale : Nat → UInt8} {c : Call} {r : Int}

namespace Layout

theorem Stays.refl (L : Layout) (img : Image) : L.Stays img img := fun _ _ => rfl

theorem Stays.trans (h' : L.Stays img'' img') (h : L.Stays img' img) : L.Stays img'' img := by
  intro x hx
  rw [h' x hx, h x hx]

/-! ## The parts that are stored in -/

theorem Foreign.record (hx : L.Foreign x) (hi : i < L.inodes) :
    x < L.recordAt i ∨ L.recordAt i + 64 ≤ x := by
  have hlo := L.recordAt_ge i
  have hhi := L.recordAt_lt hi
  have hpos := L.head_pos
  have hroom := L.extentBlocks
  unfold Foreign at hx
  omega

theorem Foreign.extents (hx : L.Foreign x) (hi : i < L.inodes) :
    x < L.extentAt i ∨ L.extentAt i + 4096 ≤ x := by
  have hlo := L.extentAt_ge i
  have hhi := L.extentAt_lt hi
  have hpos := L.head_pos
  unfold Foreign at hx
  omega

theorem Foreign.block (hx : L.Foreign x) (hb : b < L.blocks) :
    x < L.blockAt b ∨ L.blockAt b + 4096 ≤ x := by
  have hlo := L.blockAt_ge b
  have hpos := L.head_pos
  have hstart : L.blockAt b = 4096 * ((L.data : Int) + b) := rfl
  unfold Foreign at hx
  omega

theorem Foreign.bitmaps (hx : L.Foreign x) : x < 4096 ∨ 4096 * (L.inodeTable : Int) ≤ x := by
  have htable := L.extents_lt
  have hroom := L.extentBlocks
  unfold Foreign at hx
  omega

theorem Foreign.counters (hx : L.Foreign x) : x < 44 ∨ 52 ≤ x := by
  have hpos := L.head_pos
  have htable := L.extents_lt
  have hroom := L.extentBlocks
  unfold Foreign at hx
  omega

theorem stays_setFreeBlocksCount : L.Stays (setFreeBlocksCount img v) img := by
  intro x hx
  have hout := hx.counters
  exact setFreeBlocksCount_apply (by omega)

theorem stays_setFreeInodesCount : L.Stays (setFreeInodesCount img v) img := by
  intro x hx
  have hout := hx.counters
  exact setFreeInodesCount_apply (by omega)

theorem stays_modify_inodeMap {value : Bool} (hi : i < L.inodeBitCount) :
    L.Stays (modify img L.inodeMapAt i value) img := by
  intro x hx
  have hbounds := L.inodeByte_bounds hi
  have hlast := L.dataMap_lt
  have hmap : L.dataMapAt = 4096 * (L.dataMap : Int) := rfl
  have hout := hx.bitmaps
  exact modify_apply_of_ne value (by omega)

theorem stays_modify_dataMap {value : Bool} (hb : b < 65536) :
    L.Stays (modify img L.dataMapAt b value) img := by
  intro x hx
  have hbounds := L.dataByte_bounds hb
  have hlo := L.dataMapAt_ge
  have hout := hx.bitmaps
  exact modify_apply_of_ne value (by omega)

/-- What happens at the first bytes of the bitmaps stays inside of them. -/
theorem stays_of_maps (h : ∀ x, x ≠ L.inodeMapAt → x ≠ L.dataMapAt → img' x = img x) :
    L.Stays img' img := by
  intro x hx
  have hlo := L.inodeMapAt_ge
  have hlt := L.inodeMapAt_lt
  have hlast := L.dataMap_lt
  have hmap : L.dataMapAt = 4096 * (L.dataMap : Int) := rfl
  have hout := hx.bitmaps
  exact h x (by omega) (by omega)

theorem stays_setLinks (hi : i < L.inodes) : L.Stays (setLinks img (L.recordAt i) v) img := by
  intro x hx
  have hout := hx.record hi
  exact storeNat_apply_of_outside (by omega)

/-- The bits of an inode and of its blocks stay inside the bitmaps. -/
theorem stays_released {after : Image → Image} (hafter : ∀ img, L.Stays (after img) img)
    (hbs : ∀ b ∈ bs, b < 65536) : L.Stays (L.released after bs img) img := by
  induction bs generalizing img with
  | nil => exact .refl L img
  | cons b bs ih =>
      have hrest : L.Stays (L.released after bs (after (modify img L.dataMapAt b false)))
          (after (modify img L.dataMapAt b false)) :=
        ih fun c hc => hbs c (List.mem_cons_of_mem _ hc)
      have hbit : L.Stays (modify img L.dataMapAt b false) img :=
        stays_modify_dataMap (hbs b List.mem_cons_self)
      exact hrest.trans ((hafter _).trans hbit)

theorem stays_freedInode (hi : i < L.inodeBitCount) : L.Stays (L.freedInode img i) img :=
  stays_setFreeInodesCount.trans (stays_modify_inodeMap hi)

end Layout

/-! ## A removal -/

/-- A removal stores to the size of the parent and to one of its slots. -/
theorem removeDentry_apply {parent e : Int} {found : Bool}
    (hr : removeDentry img parent e name = .ok (img', found))
    (hparent : x < parent + 8 ∨ parent + 16 ≤ x)
    (hslots : ∀ slot ∈ numberedSlots img parent e, x < slot.1 ∨ slot.1 + 256 ≤ x) :
    img' x = img x := by
  rcases removeDentry_cases (removeDentry_reads hr) with ⟨_, heq⟩ | ⟨d, k, hfind, hcases⟩
  · cases heq.symm.trans hr
    rfl
  · have hmem : (d, k) ∈ numberedSlots img parent e := by
      rw [findSlot] at hfind
      exact List.mem_of_find?_eq_some hfind
    have hslot : x < d ∨ d + 256 ≤ x := hslots (d, k) hmem
    rcases hcases with ⟨_, heq⟩ | ⟨s, img₁, hname, rfl, heq⟩
    · cases heq.symm.trans hr
      exact setSize_apply hparent
    · cases heq.symm.trans hr
      have hlen : s.length + 1 ≤ 252 := by
        obtain ⟨rest, hbytes⟩ := eq_append_of_cstr hname
        have hcount := congrArg List.length hbytes
        rw [length_bytesAt, List.length_append, length_terminated] at hcount
        omega
      rw [setSize_apply hparent, setDentryIno, set32, storeNat_apply_of_outside (by omega),
        setDentryName, store_apply_of_outside (by rw [length_terminated]; omega)]

namespace Consistent

/-- The image that a removal works on agrees with the one before on what no call changes. -/
theorem stays_freed (h : Consistent L img nodes) (hnd : nodes i = some nd) {after : Image → Image}
    (hafter : ∀ img, L.Stays (after img) img) :
    L.Stays (L.released after nd.blocks (L.freedInode img i)) img :=
  (Layout.stays_released hafter fun _ hb => (h.wellFormed.blockBit hnd hb).1).trans
    (Layout.stays_freedInode (h.wellFormed.inodeBit hnd).1)

/-- A removal from a directory of the tree. -/
theorem removeDentry_stays (h : Consistent L img nodes) {m m' : Image} {found : Bool}
    (hin : pn.InBlock L m p q) (hof : L.Of m) (hpn : nodes p = some pn)
    (hq : pn.extents = [(q, 1)])
    (hr : removeDentry m (L.recordAt p) (L.extentAt p) name = .ok (m', found)) :
    L.Stays m' m := by
  intro x hx
  have hsmall := h.tree.small p pn hpn
  have hlt := (hsmall.mem_extents (hq ▸ List.mem_singleton_self _)).2.2.2
  have hrecord := hx.record hsmall.inode_lt
  have hblock := hx.block hlt
  refine removeDentry_apply hr (by omega) fun slot hslot => ?_
  rw [h.tree.numberedSlots_one hin hof hpn hq] at hslot
  obtain ⟨k, hk, rfl⟩ := List.mem_map.mp hslot
  have hk16 := List.mem_range.mp hk
  change x < L.blockAt q + 256 * (k : Int) ∨ L.blockAt q + 256 * (k : Int) + 256 ≤ x
  omega

/-! ## The calls -/

/-- The slot of a new entry lies in the block of its directory. -/
theorem newSlot_one (h : Consistent L img nodes) {m : Image} (hold : Holds L m nodes)
    (hpn : nodes p = some pn) (hdir : sIsDir pn.mode) :
    ∃ q < L.blocks, ∃ k : Nat, k ≤ 3840 ∧ L.newSlot m p = L.blockAt q + k := by
  obtain ⟨q, hq, _, hlt⟩ := h.tree.exists_block hpn hdir
  have hlen := h.tree.length_entries hpn
  have hsize := (h.tree.ok hpn).size_dir hdir
  refine ⟨q, hlt, pn.size % 4096, by omega, ?_⟩
  rw [Layout.newSlot_eq (hold.nodeAt p pn hpn) (h.tree.ok hpn) hold.of
    (by rw [hq]; exact List.cons_ne_nil _ _), Node.lastBlock_one hq]

section Calls

variable (h : Consistent L img nodes)
include h

theorem mkdir_stays (hc : (Call.mkdir t mode stale).Allowed img)
    (hsafe : (Call.mkdir t mode stale).Safe img)
    (hrun : a1fsMkdir img t.path mode stale = .ok (r, img')) : L.Stays img' img := by
  obtain ⟨habsent, hparent, _, _⟩ := hc
  obtain ⟨p, pn, hnew⟩ := h.newEntry habsent hparent
  by_cases hrefused : freeInodesCount img = 0 ∨ freeBlocksCount img = 0
  · rw [a1fsMkdir, if_pos hrefused] at hrun
    cases hrun
    exact .refl L img
  · obtain ⟨hlen, hbuf, hinode, hblock⟩ := hsafe.resolve_left hrefused
    obtain ⟨i, hi, hi8, hilt⟩ := h.firstByte_inode.mp hinode
    obtain ⟨b, hb, hb8, hblt⟩ := h.firstByte_block.mp hblock
    obtain ⟨i', b', img₁, img₂, htake₁, htake₂, _, _, hold₂, _, hend⟩ :=
      h.wellFormed.mkdir_run hnew.parent hnew.node hnew.directory hlen hbuf hrefused mode
    have hbits := L.bits_ge
    have hmaps : L.Stays img₂ img := Layout.stays_of_maps fun x hx hx' => by
      rw [takeFreeBit_apply htake₂ hx', takeFreeBit_apply htake₁ hx]
    rw [hi.takeFreeBit, Nat.mod_eq_of_lt hi8] at htake₁
    obtain ⟨rfl, rfl⟩ := Prod.mk.inj htake₁
    rw [(hb.modify_inodeMap (by omega)).takeFreeBit, Nat.mod_eq_of_lt hb8] at htake₂
    obtain ⟨-, rfl⟩ := Prod.mk.inj htake₂
    cases hend.symm.trans hrun
    obtain ⟨q, hq, k, hk, hslot⟩ := h.newSlot_one hold₂ hnew.node hnew.directory
    have hname := t.name_length hlen
    have hplt := (h.tree.small p pn hnew.node).inode_lt
    refine Layout.stays_setFreeInodesCount.trans (Layout.stays_setFreeBlocksCount.trans
      (Layout.Stays.trans (fun x hx => ?_) hmaps))
    have hextent := hx.extents hilt
    have hblock := hx.block hblt
    have hdirectory := hx.block hq
    exact Layout.linkedDirectory_apply hslot (by omega) (hx.record hplt) (hx.record hilt)
      (by omega) (by omega) (by omega)

theorem create_stays (hc : (Call.create t mode stale).Allowed img)
    (hsafe : (Call.create t mode stale).Safe img)
    (hrun : a1fsCreate img t.path mode stale = .ok (r, img')) : L.Stays img' img := by
  obtain ⟨habsent, hparent, hreg, _⟩ := hc
  obtain ⟨p, pn, hnew⟩ := h.newEntry habsent hparent
  by_cases hrefused : uint32 (freeInodesCount img - 1) = 0 ∨ freeBlocksCount img = 0
  · cases (create_refused hreg hrefused).symm.trans hrun
    exact Layout.stays_setFreeInodesCount
  · obtain ⟨hlen, hbuf, hinode⟩ := hsafe.resolve_left hrefused
    obtain ⟨i, hi, hi8, hilt⟩ := h.firstByte_inode.mp hinode
    obtain ⟨i', img₁, htake, _, hold₁, _, hend⟩ :=
      h.wellFormed.create_run hnew.parent hnew.node hnew.directory hlen hbuf hreg hrefused
    have hmaps : L.Stays img₁ (setFreeInodesCount img (freeInodesCount img - 1)) :=
      Layout.stays_of_maps fun x hx _ => takeFreeBit_apply htake hx
    have hleast : LeastClear (setFreeInodesCount img (freeInodesCount img - 1)) L.inodeMapAt i :=
      hi.congr fun _ _ => bitSet_setFreeInodesCount L.inodeMapAt_ge
    rw [hleast.takeFreeBit, Nat.mod_eq_of_lt hi8] at htake
    obtain ⟨-, rfl⟩ := Prod.mk.inj htake
    cases hend.symm.trans hrun
    obtain ⟨q, hq, k, hk, hslot⟩ := h.newSlot_one hold₁ hnew.node hnew.directory
    have hname := t.name_length hlen
    have hplt := (h.tree.small p pn hnew.node).inode_lt
    refine Layout.Stays.trans (fun x hx => ?_) (hmaps.trans Layout.stays_setFreeInodesCount)
    have hdirectory := hx.block hq
    exact Layout.linkedFile_apply hslot (by omega) (hx.record hplt) (hx.record hilt) (by omega)

theorem rmdir_stays (hc : (Call.rmdir t stale).Allowed img)
    (hsafe : (Call.rmdir t stale).Safe img)
    (hrun : a1fsRmdir img t.path stale = .ok (r, img')) : L.Stays img' img := by
  obtain ⟨i, nd, hi, hnd, hdir⟩ :=
    IsDirectory.node h.hold h.tree.closed t.component t.length_lt hc
  have hlt := (h.tree.small i nd hnd).inode_lt
  by_cases hlinks : nd.links = 2
  · obtain ⟨hlen, hbuf⟩ := hsafe.resolve_left fun hleads => by
      rw [leads_iff (WellFormed.pathInode_target h.wellFormed hi), h.of.inodeAddr hlt.le,
        (h.hold.nodeAt i nd hnd).links] at hleads
      exact hleads hlinks
    obtain ⟨p, pn, hp, hpn, hpdir, _⟩ := h.wellFormed.parent_of_resolve hi
    obtain ⟨q, hq, _, _⟩ := h.tree.exists_block hpn hpdir
    have hplt := (h.tree.small p pn hpn).inode_lt
    have hold := WellFormed.released_hold h.wellFormed hnd (L := L) headUpdate_id
    have hin := h.tree.inBlock (hold.nodeAt p pn hpn) hpn hpdir hq
    have hfreed : L.Stays (L.released id nd.blocks (L.freedInode img i)) img :=
      h.stays_freed hnd fun img => .refl L img
    rw [WellFormed.rmdir_run h.wellFormed hi hnd hlen hbuf hp hpn hlinks] at hrun
    obtain ⟨⟨m, found⟩, hremove, hend⟩ := bind_eq_ok.mp hrun
    have hremoved := h.removeDentry_stays hin hold.of hpn hq hremove
    cases hend
    refine Layout.Stays.trans ?_ (hremoved.trans hfreed)
    cases found with
    | true => exact Layout.stays_setLinks hplt
    | false => exact .refl L m
  · cases (WellFormed.rmdir_refused h.wellFormed hi hnd hlinks).symm.trans hrun
    exact .refl L img

theorem unlink_stays (hc : (Call.unlink t stale).Allowed img)
    (hsafe : (Call.unlink t stale).Safe img)
    (hrun : a1fsUnlink img t.path stale = .ok (r, img')) : L.Stays img' img := by
  obtain ⟨hlen, hdirs⟩ := hsafe
  obtain ⟨i, nd, hi, hnd, _⟩ := IsFile.node h.hold h.tree.closed t.component t.length_lt hc
  obtain ⟨p, pn, hp, hpn, hpdir, _⟩ := h.wellFormed.parent_of_resolve hi
  obtain ⟨q, hq, _, _⟩ := h.tree.exists_block hpn hpdir
  obtain rfl : p = 0 := by
    rw [hdirs, Nodes.resolve] at hp
    omega
  have hplt := (h.tree.small 0 pn hpn).inode_lt
  have hold := WellFormed.released_hold h.wellFormed hnd (L := L) headUpdate_count
  have hfreed : L.Stays (L.released countBlock nd.blocks (L.freedInode img i)) img :=
    h.stays_freed hnd fun img => Layout.stays_setFreeBlocksCount
  have hstray : L.strayAt 0 = L.recordAt 0 := by
    unfold Layout.strayAt Layout.recordAt
    omega
  rw [WellFormed.unlink_run h.wellFormed hi hnd hlen (fun hne => absurd hdirs hne) hp hpn,
    Layout.unlinked, hstray] at hrun
  obtain ⟨⟨m, found⟩, hremove, hend⟩ := bind_eq_ok.mp hrun
  cases hend
  obtain ⟨R, hR⟩ : ∃ R, L.released countBlock nd.blocks (L.freedInode img i) = R := ⟨_, rfl⟩
  rw [hR] at hold hfreed hremove
  have hin := (h.tree.inBlock (hold.nodeAt 0 pn hpn) hpn hpdir hq).setLinks
    (v := inodeLinks R (L.recordAt 0) - 1) (h.tree.ok hpn) (h.tree.length_entries hpn) hplt
  have hof : L.Of (setLinks R (L.recordAt 0) (inodeLinks R (L.recordAt 0) - 1)) :=
    ((Layout.SameHead.refl L R).setLinks (L.recordAt_ge 0)).of hold.of
  exact (h.removeDentry_stays hin hof hpn hq hremove).trans
    ((Layout.stays_setLinks hplt).trans hfreed)

omit h in
theorem stays_stored {m : Image} {size : Nat} (hi : i < L.inodes) (hb : b < L.blocks)
    (hstored : BlockStored L img' m i b size) : L.Stays img' m := by
  intro x hx
  have hrecord := hx.record hi
  exact hstored.keeps x (by omega) (hx.block hb)

theorem write_stays {buf : List UInt8} {offset : Nat}
    (hc : (Call.write t buf offset).Allowed img) (hsafe : (Call.write t buf offset).Safe img)
    (hrun : a1fsWrite img t.path buf offset = .ok (r, img')) : L.Stays img' img := by
  obtain ⟨i, nd, b, img₁, img₂, _, hnd, _, hend, hstored, _, hcases⟩ := h.write_safe hc hsafe
  cases hend.symm.trans hrun
  have hlt := (h.tree.small i nd hnd).inode_lt
  rcases hcases with ⟨_, _, hb8, hblt, rfl, _⟩ | ⟨_, _, _, hblt, rfl, _⟩
  · refine (stays_stored hlt hblt hstored).trans fun x hx => ?_
    have hrecord := hx.record hlt
    have hextents := hx.extents hlt
    have hout := hx.counters
    unfold giveFirstBlock setExtentCount setExtentLength setExtentStart set32
    rw [setFreeBlocksCount_apply (by omega), storeNat_apply_of_outside (by omega),
      storeNat_apply_of_outside (by omega), storeNat_apply_of_outside (by omega)]
    exact Layout.stays_modify_dataMap (by omega) x hx
  · exact stays_stored hlt hblt hstored

theorem truncate_stays {size : Nat} (hc : (Call.truncate t size).Allowed img)
    (hsafe : (Call.truncate t size).Safe img)
    (hrun : a1fsTruncate img t.path size = .ok (r, img')) : L.Stays img' img := by
  obtain ⟨i, nd, b, img₁, _, hnd, _, _, hend, hcases⟩ := h.truncate_safe hc hsafe
  cases hend.symm.trans hrun
  have hlt := (h.tree.small i nd hnd).inode_lt
  rcases hcases with ⟨_, _, _, hblt, hstored, _⟩ | ⟨_, _, _, hkeeps⟩
  · exact (stays_stored hlt hblt hstored).trans Layout.stays_setFreeBlocksCount
  · have hkept : L.Stays img' (chargedBlocks img 4096 4096) := fun x hx => by
      have hextents := hx.extents hlt
      exact hkeeps x (hx.record hlt) (by omega)
    exact hkept.trans Layout.stays_setFreeBlocksCount

/-- A safe call stores in its own parts of the image only. -/
theorem performs_stays (hc : Performs img c img') (hsafe : c.Safe img) : L.Stays img' img := by
  obtain ⟨hallowed, r, hrun⟩ := hc
  cases c with
  | mkdir t mode stale => exact h.mkdir_stays hallowed hsafe hrun
  | create t mode stale => exact h.create_stays hallowed hsafe hrun
  | rmdir t stale => exact h.rmdir_stays hallowed hsafe hrun
  | unlink t stale => exact h.unlink_stays hallowed hsafe hrun
  | write t buf offset => exact h.write_stays hallowed hsafe hrun
  | truncate t size => exact h.truncate_stays hallowed hsafe hrun

end Calls

end Consistent

/-! ## Runs -/

/-- The data blocks of a fresh image end before the image does. -/
theorem FreshImage.last_le {size : Nat} (h : FreshImage img size n) :
    4096 * (dataStart n + formatBlocks size n) ≤ size := by
  have hcount := formatBlocks_of_exact (exact_of_layoutFits h.inodes_pos h.fits)
  obtain ⟨_, hlo, _⟩ := h.fits
  omega

theorem SafeRun.stays {size : Nat} {calls : List Call} (hfresh : FreshImage img size n)
    (run : SafeRun img calls img') :
    (formatLayout size n hfresh.inodes_pos hfresh.fits.1).Stays img' img := by
  refine (Run.state_invariant (I := fun img' => (∃ nodes, Consistent _ img' nodes) ∧
    (formatLayout size n hfresh.inodes_pos hfresh.fits.1).Stays img' img)
    ⟨⟨freshNodes, hfresh.consistent⟩, .refl _ img⟩ ?_ run).2
  rintro img₁ c img₂ ⟨⟨nodes, h⟩, hstays⟩ ⟨hperforms, hsafe⟩
  exact ⟨h.performs hperforms hsafe, (h.performs_stays hperforms hsafe).trans hstays⟩

/-- No run of safe calls stores outside of the image, nor in the superblock except for the
counters of free blocks and inodes. -/
theorem stores_inside {size : Nat} {calls : List Call} (hfresh : FreshImage img size n)
    (run : SafeRun img calls img') {x : Int} (hx : img' x ≠ img x) :
    (44 ≤ x ∧ x < 52) ∨ (4096 ≤ x ∧ x < size) := by
  have hlast := hfresh.last_le
  by_contra hout
  refine hx (run.stays hfresh x ?_)
  change x < 44 ∨ (52 ≤ x ∧ x < 4096) ∨ 4096 * ((dataStart n : Int) + formatBlocks size n) ≤ x
  omega

theorem stores_inside_file : ∃ img', SafeRun smallImage [createFile] img' ∧
    ∀ x, img' x ≠ smallImage x → (44 ≤ x ∧ x < 52) ∨ (4096 ≤ x ∧ x < 1048576) := by
  obtain ⟨img', _, run, _⟩ := createFile_run
  exact ⟨img', run, fun _ hx => stores_inside smallImage_fresh run hx⟩

end UoftOs.FileSystem
