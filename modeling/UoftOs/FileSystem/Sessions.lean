import UoftOs.FileSystem.Footprint
import UoftOs.FileSystem.Namespace

/-!
# Sessions

Two programs work on an image file: `mkfs.a1fs` formats it, and `a1fs` mounts it, makes the
calls of FUSE and unmounts it. Over any sequence of such sessions that begins with a
formatting the file holds one file system, and only a formatting with `-f` starts it anew.

## Implementation notes

The options are what `getopt` returns, in order, with what `strtoul` makes of the argument
of `-i`. The answers of the operating system to `open`, `fstat` and `mmap` come with each
invocation. One session ends before the next one begins.
-/

namespace UoftOs.FileSystem

open Lib.ByteMemory Lib.NamedTree Lib.Transition

/-! ## The programs -/

/-- What the operating system answers to `open`, `fstat` and `mmap`. -/
structure OsAnswers where
  opens : Bool
  stats : Bool
  maps : Bool

/-- `map_file`, for a file of `fileSize` bytes: the size of the mapping. -/
def mapFile (os : OsAnswers) (blockSize fileSize : Nat) : Option Nat :=
  if !os.opens then none
  else if !os.stats then none
  else if fileSize = 0 then none
  else if fileSize % blockSize ≠ 0 then none
  else if !os.maps then none
  else some fileSize

/-- What `getopt` returns to `parse_args`. -/
inductive Flag
  | i (optarg : Nat)
  | h
  | f
  | v
  | z
  | unknown

/-- `mkfs_opts`. -/
structure MkfsOpts where
  nInodes : Nat
  help : Bool
  force : Bool
  zero : Bool

/-- The loop of `parse_args`, with its answer where it returns early. `getopt` knows `-v`, but
there is no case for it. -/
def scanFlags : MkfsOpts → List Flag → Except Fault (Option Bool × MkfsOpts)
  | opts, [] => .ok (none, opts)
  | opts, .i optarg :: rest => scanFlags { opts with nInodes := optarg } rest
  | opts, .h :: _ => .ok (some true, { opts with help := true })
  | opts, .f :: rest => scanFlags { opts with force := true } rest
  | _, .v :: _ => .error .assertion
  | opts, .z :: rest => scanFlags { opts with zero := true } rest
  | opts, .unknown :: _ => .ok (some false, opts)

/-- `parse_args`. The image path is there when an argument is left. -/
def parseArgs (flags : List Flag) (imgPath : Bool) : Except Fault (Bool × MkfsOpts) := do
  let (answer, opts) ← scanFlags ⟨0, false, false, false⟩ flags
  match answer with
  | some answer => .ok (answer, opts)
  | none => .ok (imgPath && opts.nInodes != 0, opts)

/-- `a1fs_is_present`. -/
def a1fsIsPresent (img : Image) : Bool := magicOf img == a1fsMagic

/-- An invocation of `mkfs.a1fs`. -/
structure Invocation where
  flags : List Flag
  imgPath : Bool
  os : OsAnswers

/-- `main` of `mkfs.a1fs`, on a file of `fileSize` bytes. -/
def mkfsMain (args : Invocation) (fileSize : Nat) (img : Image) : Except Fault (Int × Image) := do
  let (parsed, opts) ← parseArgs args.flags args.imgPath
  if !parsed then .ok (1, img)
  else if opts.help then .ok (0, img)
  else
    match mapFile args.os 4096 fileSize with
    | none => .ok (1, img)
    | some size =>
        if !opts.force && a1fsIsPresent img then .ok (1, img)
        else
          let img := if opts.zero then fill img 0 0 size else img
          let (formatted, img) := mkfs img size opts.nInodes
          .ok (if formatted then 0 else 1, img)

/-- `a1fs_init`, when it is not only to print help. `fs_ctx_init` does not look at the image. -/
def a1fsInit (os : OsAnswers) (fileSize : Nat) : Bool := (mapFile os 4096 fileSize).isSome

/-- `struct timespec`. -/
structure Timespec where
  sec : Int
  nsec : Int

/-- The assignment to `mtime`. -/
def setMtime (img : Image) (p : Int) (mtime : Timespec) : Image :=
  set64 (set64 img (p + 16) mtime.sec) (p + 24) mtime.nsec

/-- `a1fs_utimens`. Without times it reads the clock and stores nothing. -/
def a1fsUtimens (img : Image) (path : Path) (times : Option (Timespec × Timespec)) :
    Except Fault (Int × Image) := do
  let currentIno ← pathInode img path
  match times with
  | none => .ok (0, img)
  | some (_, mtime) => .ok (0, setMtime img (inodeAddr img currentIno) mtime)

/-! ## Steps and runs -/

/-- What happens to an image file. -/
inductive Action
  | format (args : Invocation)
  | mount (os : OsAnswers)
  | call (c : Call)
  | utimens (cs : List Name) (times : Option (Timespec × Timespec))
  | unmount

/-- An image file. -/
structure Disk where
  image : Image
  mounted : Bool

/-- A step of an image file of `size` bytes, with the answer of the program or the call. -/
inductive Disk.Step (size : Nat) (d : Disk) : Action × Int → Disk → Prop
  | format {args r img'} (hm : d.mounted = false)
      (hrun : mkfsMain args size d.image = .ok (r, img')) :
      Step size d (.format args, r) ⟨img', false⟩
  | mount {os} (hm : d.mounted = false) (hinit : a1fsInit os size = true) :
      Step size d (.mount os, 0) { d with mounted := true }
  | mountFails {os} (hm : d.mounted = false) (hinit : a1fsInit os size = false) :
      Step size d (.mount os, 1) d
  | call {c r img'} (hm : d.mounted = true) (hcall : Answers d.image (c, r) img') :
      Step size d (.call c, r) { d with image := img' }
  | utimens {cs times st r img'} (hm : d.mounted = true) (hcs : ValidPath cs)
      (hfound : a1fsGetattr d.image (render cs) = .ok (0, st))
      (hrun : a1fsUtimens d.image (render cs) times = .ok (r, img')) :
      Step size d (.utimens cs times, r) { d with image := img' }
  | unmount (hm : d.mounted = true) : Step size d (.unmount, 0) { d with mounted := false }

/-- The invocation gets as far as to look at the image, with these options. -/
def Invocation.Accepted (args : Invocation) (size : Nat) (opts : MkfsOpts) : Prop :=
  parseArgs args.flags args.imgPath = .ok (true, opts) ∧ opts.help = false ∧
    mapFile args.os 4096 size = some size

/-- The options give a fresh file system on a file of `size` bytes. -/
structure MkfsOpts.Fitting (opts : MkfsOpts) (size : Nat) : Prop where
  zero : opts.zero = true
  fits : LayoutFits size opts.nInodes
  blocks_lt : size / 4096 < 524291

/-- Forced formatting comes with fitting options, and the calls stay clear of the wrong
places. -/
def Action.Safe (size : Nat) (d : Disk) (a : Action × Int) : Prop :=
  match a.1 with
  | .format args => ∀ opts, args.Accepted size opts → opts.force = true → opts.Fitting size
  | .call c => c.Safe d.image
  | _ => True

/-- The runs of safe actions on a file of `size` bytes. -/
abbrev SessionRun (size : Nat) (d : Disk) (log : List (Action × Int)) (d' : Disk) : Prop :=
  Run (Guarded (Disk.Step size) (Action.Safe size)) d log d'

/-- The memory that maps a file with these bytes. -/
def fileImage (bytes : List UInt8) : Image := fun x => if 0 ≤ x then bytes.getD x.toNat 0 else 0

/-- What an action does to the name space. -/
inductive Namespace.Acts (size : Nat) (ns : Namespace) : Action × Int → Namespace → Prop
  | formatted {args opts} (hargs : args.Accepted size opts) (hforce : opts.force = true) :
      Acts size ns (.format args, 0) fresh
  | refused {args opts} (hargs : args.Accepted size opts) (hforce : opts.force = false) :
      Acts size ns (.format args, 1) ns
  | helped {args opts} (hargs : parseArgs args.flags args.imgPath = .ok (true, opts))
      (hhelp : opts.help = true) : Acts size ns (.format args, 0) ns
  | rejected {args opts parsed} (hargs : parseArgs args.flags args.imgPath = .ok (parsed, opts))
      (hnot : parsed = false ∨ (opts.help = false ∧ mapFile args.os 4096 size = none)) :
      Acts size ns (.format args, 1) ns
  | call {c r ns'} (h : ns.Does c r ns') : Acts size ns (.call c, r) ns'
  | utimens {cs times} (h : ns cs ≠ none) : Acts size ns (.utimens cs times, 0) ns
  | mount {os} : Acts size ns (.mount os, if a1fsInit os size then 0 else 1) ns
  | unmount : Acts size ns (.unmount, 0) ns

variable {L : Layout} {img img' : Image} {nodes : Nodes} {nd : Node} {i size n : Nat}
  {args : Invocation} {opts : MkfsOpts} {flags : List Flag} {path : Bool} {r p x : Int}
  {mtime : Timespec} {d d' : Disk} {ns ns' : Namespace}

/-! ## What `main` does -/

theorem mapFile_eq_some {os : OsAnswers} {blockSize fileSize : Nat}
    (h : mapFile os blockSize fileSize = some n) : n = fileSize := by
  unfold mapFile at h
  split_ifs at h
  exact (Option.some.inj h).symm

/-- The loop answers true early for `-h` only. -/
theorem scanFlags_help {opts₀ : MkfsOpts} (h : scanFlags opts₀ flags = .ok (some true, opts)) :
    opts.help = true := by
  induction flags generalizing opts₀ with
  | nil => cases h
  | cons flag rest ih =>
      cases flag with
      | i optarg => exact ih h
      | h =>
          cases h
          rfl
      | f => exact ih h
      | v => cases h
      | z => exact ih h
      | unknown => cases h

/-- Arguments without a number of inodes are not accepted. -/
theorem parseArgs_nInodes (h : parseArgs flags path = .ok (true, opts)) (hhelp : opts.help = false) :
    0 < opts.nInodes := by
  obtain ⟨⟨answer, opts'⟩, hscan, hend⟩ := bind_eq_ok.mp h
  cases answer with
  | some answer =>
      cases hend
      rw [scanFlags_help hscan] at hhelp
      cases hhelp
  | none =>
      simp only [Except.ok.injEq, Prod.mk.injEq, Bool.and_eq_true, bne_iff_ne] at hend
      obtain ⟨⟨_, hne⟩, rfl⟩ := hend
      exact Nat.pos_of_ne_zero hne

/-- What `main` does with arguments that it accepts. -/
theorem mkfsMain_accepted (h : args.Accepted size opts) : mkfsMain args size img =
    if !opts.force && a1fsIsPresent img then .ok (1, img)
    else .ok (0, (mkfs (if opts.zero then fill img 0 0 size else img) size opts.nInodes).2) := by
  obtain ⟨hparse, hhelp, hmap⟩ := h
  rw [mkfsMain, hparse, ok_bind]
  simp only [Bool.not_true, hhelp, hmap, Bool.false_eq_true, if_false]
  rfl

/-- `main` formats the image, or it leaves it alone. -/
theorem mkfsMain_cases (h : mkfsMain args size img = .ok (r, img')) :
    (∃ opts, args.Accepted size opts ∧ (opts.force = true ∨ a1fsIsPresent img = false) ∧ r = 0 ∧
      img' = (mkfs (if opts.zero then fill img 0 0 size else img) size opts.nInodes).2) ∨
    (∃ opts, args.Accepted size opts ∧ opts.force = false ∧ a1fsIsPresent img = true ∧ r = 1 ∧
      img' = img) ∨
    (∃ opts, parseArgs args.flags args.imgPath = .ok (true, opts) ∧ opts.help = true ∧ r = 0 ∧
      img' = img) ∨
    ∃ parsed opts, parseArgs args.flags args.imgPath = .ok (parsed, opts) ∧
      (parsed = false ∨ (opts.help = false ∧ mapFile args.os 4096 size = none)) ∧ r = 1 ∧
      img' = img := by
  obtain ⟨⟨parsed, opts⟩, hparse, hend⟩ := bind_eq_ok.mp h
  cases parsed with
  | false =>
      cases hend
      exact .inr (.inr (.inr ⟨false, opts, hparse, .inl rfl, rfl, rfl⟩))
  | true =>
      cases hhelp : opts.help with
      | true =>
          simp only [Bool.not_true, hhelp, if_true] at hend
          cases hend
          exact .inr (.inr (.inl ⟨opts, hparse, hhelp, rfl, rfl⟩))
      | false =>
          cases hmap : mapFile args.os 4096 size with
          | none =>
              simp only [Bool.not_true, hhelp, hmap] at hend
              cases hend
              exact .inr (.inr (.inr ⟨true, opts, hparse, .inr ⟨hhelp, rfl⟩, rfl, rfl⟩))
          | some size' =>
              obtain rfl := mapFile_eq_some hmap
              have hargs : args.Accepted size' opts := ⟨hparse, hhelp, hmap⟩
              rw [mkfsMain_accepted hargs] at h
              split at h
              · rename_i hrefused
                cases h
                rw [Bool.and_eq_true, Bool.not_eq_true'] at hrefused
                exact .inr (.inl ⟨opts, hargs, hrefused.1, hrefused.2, rfl, rfl⟩)
              · rename_i hdone
                cases h
                rw [Bool.and_eq_true, Bool.not_eq_true', not_and_or, Bool.not_eq_false,
                  Bool.not_eq_true] at hdone
                exact .inl ⟨opts, hargs, hdone, rfl, rfl⟩

/-! ## A formatted image -/

/-- Formatting stores in front of the end of the root's block only. -/
theorem mkfs_apply_of_outside (hn : 0 < n) (h : dataStart n < 524288)
    (hx : x < 0 ∨ 4096 * ((dataStart n : Int) + 1) ≤ x) : (mkfs img size n).2 x = img x := by
  rw [mkfs_eq_formatImage hn h]
  obtain ⟨L, hL⟩ : ∃ L, formatLayout size n hn h = L := ⟨_, rfl⟩
  have hdata : L.data = dataStart n := by rw [← hL]; rfl
  have := L.inodeMap_pos
  have := L.inodeMap_lt
  have := L.dataMap_lt
  have := L.extents_lt
  have := L.extentBlocks
  have := L.inodes_pos
  rw [hL]
  unfold formatImage clearedImage setExtentStart setExtentLength set32 Layout.inodeMapAt
    Layout.dataMapAt Layout.blockAt Layout.extentAt Layout.recordAt
  rw [storeNat_apply_of_outside (by omega), storeNat_apply_of_outside (by omega),
    storeRootEntry_apply (by decide) (by omega), storeRootEntry_apply (by decide) (by omega),
    storeNat_apply_of_outside (by omega), storeNat_apply_of_outside (by omega),
    storeSuperblock_apply (by omega), fill_apply_of_outside (by omega),
    fill_apply_of_outside (by omega), clearInodeMap_apply (by omega), if_neg (by omega),
    storeRootInode_apply (by omega), storeSuperblock_apply (by omega)]

/-- A formatted image is present. -/
theorem mkfs_isPresent (hn : 0 < n) (h : dataStart n < 524288) :
    a1fsIsPresent (mkfs img size n).2 = true := by
  obtain ⟨m, hm⟩ : ∃ m, clearedImage (formatLayout size n hn h) (formatSuperblock size n) img = m :=
    ⟨_, rfl⟩
  have hagree : AgreeOn (mkfs img size n).2 (set64 m 0 a1fsMagic) 0 8 := by
    intro x hlo hhi
    rw [mkfs_eq_formatImage hn h, formatImage_head hlo (by omega), hm]
    unfold storeSuperblock set64 set32
    rw [fill_apply_of_outside (by omega)]
    iterate 10 rw [storeNat_apply_of_outside (by omega)]
    rfl
  rw [a1fsIsPresent, beq_iff_eq, magicOf, u64_congr hagree, u64_set64_self]
  rfl

/-- The bytes around the mapping are not there. -/
def Bounded (size : Nat) (img : Image) : Prop := ∀ x : Int, x < 0 ∨ size ≤ x → img x = 0

theorem bounded_fileImage (bytes : List UInt8) : Bounded bytes.length (fileImage bytes) := by
  intro x hx
  unfold fileImage
  split
  · exact List.getD_eq_default _ _ (by omega)
  · rfl

/-- A bounded image maps a file. -/
theorem Bounded.exists_bytes (h : Bounded size img) :
    ∃ bytes, bytes.length = size ∧ img = fileImage bytes := by
  refine ⟨bytesAt img 0 size, length_bytesAt, funext fun x => ?_⟩
  unfold fileImage
  split
  · rename_i hlo
    rcases Int.lt_or_le x size with hlt | hge
    · have hget : x.toNat < (bytesAt img 0 size).length := by
        rw [length_bytesAt]
        omega
      rw [List.getD_eq_getElem _ _ hget, getElem_bytesAt]
      congr 1
      omega
    · rw [h x (.inr hge), List.getD_eq_default _ _ (by rw [length_bytesAt]; omega)]
  · exact h x (.inl (by omega))

/-- Zeroing a bounded image leaves zeros only. -/
theorem Bounded.zeroed (h : Bounded size img) (x : Int) : fill img 0 0 size x = 0 := by
  by_cases hx : 0 ≤ x ∧ x < size
  · exact fill_apply hx.1 (by omega)
  · rw [fill_apply_of_outside (by omega)]
    exact h x (by omega)

/-- What fits ends inside the file. -/
theorem LayoutFits.last_le (hn : 0 < n) (h : LayoutFits size n) :
    4096 * (dataStart n + formatBlocks size n) ≤ size ∧ 0 < formatBlocks size n := by
  have hcount := formatBlocks_of_exact (exact_of_layoutFits hn h)
  obtain ⟨_, hlo, _⟩ := h
  omega

theorem Bounded.mkfs (h : Bounded size img) (hn : 0 < n) (hfits : LayoutFits size n) :
    Bounded size (mkfs img size n).2 := by
  intro x hx
  obtain ⟨hlast, hpos⟩ := hfits.last_le hn
  rw [mkfs_apply_of_outside hn hfits.1 (by omega)]
  exact h x hx

/-! ## The modification time -/

theorem setMtime_apply (hx : x < p + 16 ∨ p + 32 ≤ x) : setMtime img p mtime x = img x := by
  unfold setMtime set64
  rw [storeNat_apply_of_outside (by omega), storeNat_apply_of_outside (by omega)]

/-- A node does not depend on the bytes of its modification time. -/
theorem Node.At.congr_around (hat : nd.At L img i) (hok : nd.Ok L)
    (hfront : AgreeOn img' img (L.recordAt i) (L.recordAt i + 16))
    (hback : AgreeOn img' img (L.recordAt i + 32) (L.recordAt i + 40))
    (hrest : ∀ x, 4096 * (L.extents : Int) ≤ x → img' x = img x) : nd.At L img' i := by
  have hroom := L.extentBlocks
  constructor
  case mode => exact (u32_congr (hfront.mono (by omega) (by omega))).trans hat.mode
  case links => exact (u32_congr (hfront.mono (by omega) (by omega))).trans hat.links
  case size => exact (u64_congr (hfront.mono (by omega) (by omega))).trans hat.size
  case number => exact (i32_congr (hback.mono (by omega) (by omega))).trans hat.number
  case count => exact (i32_congr (hback.mono (by omega) (by omega))).trans hat.count
  case extents =>
      refine fun k hk => hat.extents_congr (fun x hlo _ => hrest x ?_) hk
      unfold Layout.extentAt at hlo
      omega
  case slots =>
      intro k hk
      have hslot : AgreeOn img' img (nd.slotAt L k) (nd.slotAt L k + 256) := fun x hlo _ => by
        unfold Node.slotAt Layout.blockAt at hlo
        exact hrest x (by omega)
      obtain ⟨hname, hino⟩ := hat.slots k hk
      obtain ⟨_, hshort⟩ := hok.names _ (List.getElem_mem hk)
      exact ⟨hname.congr (hslot.mono (by omega) (by omega)),
        (u32_congr (hslot.mono (by omega) (by omega))).trans hino⟩

/-- No node has a modification time. -/
theorem Consistent.setMtime (h : Consistent L img nodes) (hi : i < L.inodes) :
    Consistent L (setMtime img (L.recordAt i) mtime) nodes := by
  have hge := L.recordAt_ge i
  have hlt := L.recordAt_lt hi
  have hroom := L.extentBlocks
  have hhead : L.SameHead (FileSystem.setMtime img (L.recordAt i) mtime) img :=
    fun x _ hx => setMtime_apply (by omega)
  have hrest : ∀ x, 4096 * (L.extents : Int) ≤ x →
      FileSystem.setMtime img (L.recordAt i) mtime x = img x := fun x hx => setMtime_apply (by omega)
  refine ⟨h.tree, ⟨hhead.of h.of, fun j nd hnd => ?_⟩, fun k hk => ?_, fun b hb => ?_⟩
  · refine (h.hold.nodeAt j nd hnd).congr_around (h.tree.ok hnd) (fun x hlo hhi => ?_)
      (fun x hlo hhi => ?_) hrest
    · unfold Layout.recordAt at hlo hhi ⊢
      exact setMtime_apply (by omega)
    · unfold Layout.recordAt at hlo hhi ⊢
      exact setMtime_apply (by omega)
  · rw [hhead.inodeBit hk, h.inodeBits k hk]
  · rw [hhead.dataBit hb, h.dataBits b hb]

theorem stays_setMtime (img : Image) (mtime : Timespec) (hi : i < L.inodes) :
    L.Stays (setMtime img (L.recordAt i) mtime) img := by
  intro x hx
  have hrecord := hx.record hi
  exact setMtime_apply (by omega)

/-! ## Steps and the name space -/

/-- The image file holds a file system with this name space. -/
structure Disk.Keeps (size : Nat) (d : Disk) (ns : Namespace) : Prop where
  held : ∃ (n : Nat) (hn : 0 < n) (hfits : LayoutFits size n) (nodes : Nodes),
    Consistent (formatLayout size n hn hfits.1) d.image nodes ∧ nodes.Named ns
  present : a1fsIsPresent d.image = true
  bounded : Bounded size d.image

/-- What stays keeps the magic number. -/
theorem Layout.Stays.isPresent (h : L.Stays img' img) (hpresent : a1fsIsPresent img = true) :
    a1fsIsPresent img' = true := by
  have hmagic : magicOf img' = magicOf img := u64_congr fun x _ hx => h x (.inl (by omega))
  rw [a1fsIsPresent, beq_iff_eq] at hpresent ⊢
  rw [hmagic, hpresent]

/-- What stays inside a file keeps the bounds of it. -/
theorem Layout.Stays.bounded (h : L.Stays img' img)
    (hlast : 4096 * (L.data + L.blocks) ≤ size) (hbounded : Bounded size img) :
    Bounded size img' := by
  intro x hx
  have hforeign : L.Foreign x := by
    unfold Layout.Foreign
    omega
  rw [h x hforeign, hbounded x hx]

/-- A formatting with fitting options starts a new file system. -/
theorem mkfs_keeps {mounted : Bool} (hbounded : Bounded size img) (hn : 0 < opts.nInodes)
    (hopts : opts.Fitting size) :
    Disk.Keeps size
      ⟨(mkfs (if opts.zero then fill img 0 0 size else img) size opts.nInodes).2, mounted⟩
      Namespace.fresh := by
  rw [hopts.zero, if_pos rfl]
  have hzeroed : Bounded size (fill img 0 0 size) := fun x _ => hbounded.zeroed x
  exact ⟨⟨_, hn, hopts.fits, freshNodes, mkfs_consistent hn hopts.fits hopts.blocks_lt fun x _ _ =>
    hbounded.zeroed x, freshNodes_named⟩, mkfs_isPresent hn hopts.fits.1, hzeroed.mkfs hn hopts.fits⟩

/-- Each safe step is one of the name space. -/
theorem Disk.Keeps.step {a : Action × Int} (h : d.Keeps size ns) (hstep : Disk.Step size d a d')
    (hsafe : Action.Safe size d a) :
    ∃ ns', Namespace.Acts size ns a ns' ∧ d'.Keeps size ns' := by
  obtain ⟨⟨n, hn, hfits, nodes, hcons, hns⟩, hpresent, hbounded⟩ := h
  cases hstep with
  | @format args r img' hm hrun =>
      rcases mkfsMain_cases hrun with ⟨opts, hargs, hforce, rfl, rfl⟩ | ⟨opts, hargs, hforce, _, rfl, rfl⟩ |
        ⟨opts, hparse, hhelp, rfl, rfl⟩ | ⟨parsed, opts, hparse, hnot, rfl, rfl⟩
      · rw [hpresent] at hforce
        have hpos := parseArgs_nInodes hargs.1 hargs.2.1
        have hforced := hforce.resolve_right Bool.noConfusion
        exact ⟨_, .formatted hargs hforced, mkfs_keeps hbounded hpos (hsafe opts hargs hforced)⟩
      · exact ⟨ns, .refused hargs hforce, ⟨n, hn, hfits, nodes, hcons, hns⟩, hpresent, hbounded⟩
      · exact ⟨ns, .helped hparse hhelp, ⟨n, hn, hfits, nodes, hcons, hns⟩, hpresent, hbounded⟩
      · exact ⟨ns, .rejected hparse hnot, ⟨n, hn, hfits, nodes, hcons, hns⟩, hpresent, hbounded⟩
  | @mount os hm hinit =>
      have hacts : Namespace.Acts size ns (.mount os, if a1fsInit os size then 0 else 1) ns := .mount
      rw [hinit] at hacts
      exact ⟨ns, hacts, ⟨n, hn, hfits, nodes, hcons, hns⟩, hpresent, hbounded⟩
  | @mountFails os hm hinit =>
      have hacts : Namespace.Acts size ns (.mount os, if a1fsInit os size then 0 else 1) ns := .mount
      rw [hinit] at hacts
      exact ⟨ns, hacts, ⟨n, hn, hfits, nodes, hcons, hns⟩, hpresent, hbounded⟩
  | @call c r img' hm hcall =>
      obtain ⟨hallowed, hrun⟩ := hcall
      obtain ⟨nodes', h', hdone⟩ := hcons.nodeStep hallowed hsafe hrun
      obtain ⟨ns', hdoes, hns'⟩ := hns.step hcons.tree h'.tree hdone
      have hstays := hcons.performs_stays ⟨hallowed, r, hrun⟩ hsafe
      exact ⟨ns', .call hdoes, ⟨n, hn, hfits, nodes', h', hns'⟩, hstays.isPresent hpresent,
        hstays.bounded (hfits.last_le hn).1 hbounded⟩
  | @utimens cs times st r img' hm hcs hfound hrun =>
      have hname : ns cs ≠ none := by
        rw [((hcons.shows hns).found cs _ hcs).mpr ⟨st, hfound, rfl⟩]
        exact Option.some_ne_none _
      obtain ⟨i, nd, hi, hnd, _⟩ :=
        getattr_found hcons.hold hcons.tree.closed hcs.component hcs.2 hfound
      have hlt := (hcons.tree.small i nd hnd).inode_lt
      have hpath : pathInode d.image (render cs) = .ok (i : Int) := by
        rw [hcons.hold.pathInode hcons.tree.closed hcs.component hcs.2, hi]
      rw [a1fsUtimens, hpath, ok_bind] at hrun
      cases times with
      | none =>
          cases hrun
          exact ⟨ns, .utimens hname, ⟨n, hn, hfits, nodes, hcons, hns⟩, hpresent, hbounded⟩
      | some times =>
          simp only [hcons.of.inodeAddr hlt.le] at hrun
          cases hrun
          have hstays := stays_setMtime d.image times.2 hlt
          exact ⟨ns, .utimens hname, ⟨n, hn, hfits, nodes, hcons.setMtime hlt, hns⟩,
            hstays.isPresent hpresent, hstays.bounded (hfits.last_le hn).1 hbounded⟩
  | unmount hm => exact ⟨ns, .unmount, ⟨n, hn, hfits, nodes, hcons, hns⟩, hpresent, hbounded⟩

/-- After a formatting with fitting options the sessions on an image file are a run of the
name space with the same answers: a formatting starts it anew if and only if it is forced.
The file shows the name space that is left, keeps its magic number and its size. -/
theorem sessions_refine {bytes : List UInt8} {img₀ : Image} {log : List (Action × Int)}
    (hargs : args.Accepted bytes.length opts) (hopts : opts.Fitting bytes.length)
    (hformat : mkfsMain args bytes.length (fileImage bytes) = .ok (0, img₀))
    (run : SessionRun bytes.length ⟨img₀, false⟩ log d) :
    ∃ ns, Run (Namespace.Acts bytes.length) Namespace.fresh log ns ∧ Shows d.image ns ∧
      a1fsIsPresent d.image = true ∧
      ∃ bytes', bytes'.length = bytes.length ∧ d.image = fileImage bytes' := by
  have hfirst : Disk.Keeps bytes.length ⟨img₀, false⟩ Namespace.fresh := by
    have hsame : ∀ opts', parseArgs args.flags args.imgPath = .ok (true, opts') → opts' = opts :=
      fun opts' hparse => (Prod.mk.inj (Except.ok.inj (hparse.symm.trans hargs.1))).2
    rcases mkfsMain_cases hformat with ⟨opts', hargs', _, _, rfl⟩ | ⟨_, _, _, _, hr, _⟩ |
      ⟨opts', hparse, hhelp, _, _⟩ | ⟨_, _, _, _, hr, _⟩
    · obtain rfl := hsame opts' hargs'.1
      exact mkfs_keeps (bounded_fileImage bytes) (parseArgs_nInodes hargs.1 hargs.2.1) hopts
    · cases hr
    · rw [hsame opts' hparse, hargs.2.1] at hhelp
      cases hhelp
    · cases hr
  obtain ⟨ns, hrun, hkeeps⟩ : ∃ ns,
      Run (Namespace.Acts bytes.length) Namespace.fresh (log.map id) ns ∧
        d.Keeps bytes.length ns :=
    run.simulation hfirst fun d a d' ns hk hstep => hk.step hstep.1 hstep.2
  rw [List.map_id] at hrun
  obtain ⟨⟨n, hn, hfits, nodes, hcons, hns⟩, hpresent, hbounded⟩ := hkeeps
  exact ⟨ns, hrun, hcons.shows hns, hpresent, hbounded.exists_bytes⟩

/-- A file is formatted, mounted for one call, and spared by a formatting without `-f`. -/
theorem sessions_refine_file : ∃ (bytes : List UInt8) (img₀ : Image) (d : Disk) (ns : Namespace),
    bytes.length = 1048576 ∧
    mkfsMain ⟨[.f, .z, .i 32], true, ⟨true, true, true⟩⟩ bytes.length (fileImage bytes) =
      .ok (0, img₀) ∧
    SessionRun bytes.length ⟨img₀, false⟩ [(.mount ⟨true, true, true⟩, 0), (.call createFile, 0),
      (.unmount, 0), (.format ⟨[.i 32], true, ⟨true, true, true⟩⟩, 1)] d ∧
    Shows d.image ns ∧ a1fsIsPresent d.image = true := by
  obtain ⟨bytes, hlen⟩ : ∃ bytes : List UInt8, bytes.length = 1048576 :=
    ⟨List.replicate 1048576 0, List.length_replicate⟩
  have hmap : mapFile ⟨true, true, true⟩ 4096 bytes.length = some bytes.length := by
    rw [hlen]
    rfl
  have hbounded : Bounded 1048576 (fileImage bytes) := hlen ▸ bounded_fileImage bytes
  have hzero : fill (fileImage bytes) 0 0 1048576 = fun _ => 0 := funext hbounded.zeroed
  have hargs : Invocation.Accepted ⟨[.f, .z, .i 32], true, ⟨true, true, true⟩⟩ bytes.length
      ⟨32, false, true, true⟩ := ⟨rfl, rfl, hmap⟩
  have hopts : MkfsOpts.Fitting ⟨32, false, true, true⟩ bytes.length := by
    rw [hlen]
    exact ⟨rfl, by decide, by decide⟩
  have hformat : mkfsMain ⟨[.f, .z, .i 32], true, ⟨true, true, true⟩⟩ bytes.length
      (fileImage bytes) = .ok (0, smallImage) := by
    rw [mkfsMain_accepted hargs]
    simp only [Bool.not_true, Bool.false_and, Bool.false_eq_true, if_false, if_true, hzero, hlen]
    rfl
  obtain ⟨img, hcreate, run, _⟩ := createFile_run
  obtain ⟨⟨hallowed, _⟩, hsafe⟩ := run.single_inv
  have hpresent : a1fsIsPresent img = true :=
    (run.stays smallImage_fresh).isPresent (mkfs_isPresent (by decide) (by decide))
  have hspared : Invocation.Accepted ⟨[.i 32], true, ⟨true, true, true⟩⟩ bytes.length
      ⟨32, false, false, false⟩ := ⟨rfl, rfl, hmap⟩
  have hsession : SessionRun bytes.length ⟨smallImage, false⟩ [(.mount ⟨true, true, true⟩, 0),
      (.call createFile, 0), (.unmount, 0), (.format ⟨[.i 32], true, ⟨true, true, true⟩⟩, 1)]
        ⟨img, false⟩ := by
    have hmount : SessionRun bytes.length ⟨smallImage, false⟩ [(.mount ⟨true, true, true⟩, 0)]
        ⟨smallImage, true⟩ :=
      Run.nil.snoc ⟨.mount rfl (by rw [a1fsInit, hmap]; rfl), trivial⟩
    have hcall : SessionRun bytes.length ⟨smallImage, false⟩ [(.mount ⟨true, true, true⟩, 0),
        (.call createFile, 0)] ⟨img, true⟩ :=
      hmount.snoc ⟨.call rfl ⟨hallowed, hcreate⟩, hsafe⟩
    have hunmount : SessionRun bytes.length ⟨smallImage, false⟩ [(.mount ⟨true, true, true⟩, 0),
        (.call createFile, 0), (.unmount, 0)] ⟨img, false⟩ :=
      hcall.snoc ⟨.unmount rfl, trivial⟩
    refine hunmount.snoc ⟨.format rfl ?_, fun opts hopts hforce => ?_⟩
    · rw [mkfsMain_accepted hspared, hpresent]
      rfl
    · obtain rfl := (Prod.mk.inj (Except.ok.inj (hspared.1.symm.trans hopts.1))).2
      cases hforce
  obtain ⟨ns, _, hshows, hpresent, _⟩ := sessions_refine hargs hopts hformat hsession
  exact ⟨bytes, smallImage, _, ns, hlen, hformat, hsession, hshows, hpresent⟩

end UoftOs.FileSystem
