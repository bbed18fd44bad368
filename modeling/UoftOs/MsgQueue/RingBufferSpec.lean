import UoftOs.MsgQueue.RingBuffer

/-!
# The byte ring refines a bounded FIFO queue

`Rep rb q` says that the ring `rb` holds the byte list `q`. Each operation is
specified once against `Rep`, including that it does not fault; the theorem on
whole call sequences is the induction over these specifications.
-/

namespace UoftOs.MsgQueue

open Lib.Cyclic

theorem except_bind_ok {ε α β : Type} {x : Except ε α} {f : α → Except ε β} {b : β}
    (h : (x >>= f) = .ok b) : ∃ a, x = .ok a ∧ f a = .ok b := by
  cases x with
  | error e => simp [bind, Except.bind] at h
  | ok a => exact ⟨a, rfl, h⟩

theorem toNat_pos {n : UInt64} (h : n ≠ 0) : 0 < n.toNat :=
  Nat.pos_of_ne_zero fun e => h (UInt64.toNat_inj.mp e)

section Memory
variable {b d : List UInt8} {s n : Nat}

theorem memcpyFrom_ok (h : s + n ≤ b.length) :
    memcpyFrom b s n = .ok ((b.drop s).take n) :=
  if_pos h

theorem memcpyTo_ok (h : s + d.length ≤ b.length) :
    memcpyTo b s d = .ok (overwrite b s d) :=
  if_pos h

/-- The bytes a debug build leaves in a freed segment. -/
def freed [Build] (buf : List UInt8) (start length : Nat) : List UInt8 :=
  if Build.ndebug then buf else overwrite buf start (List.replicate length poison)

theorem markFree_ok [Build] (h : s + n ≤ b.length) :
    markFree b s n = .ok (freed b s n) := by
  unfold markFree freed
  split
  · rfl
  · exact memcpyTo_ok (by simpa using h)

@[simp] theorem length_freed [Build] (h : s + n ≤ b.length) :
    (freed b s n).length = b.length := by
  unfold freed
  split
  · rfl
  · exact length_overwrite (by simpa using h)

theorem checkFree_ok [Build] (h : s + n ≤ b.length)
    (hp : Build.ndebug = false →
      (b.drop s).take n = List.replicate n poison) :
    checkFree b s n = .ok () := by
  cases hn : (Build.ndebug : Bool) with
  | true => simp [checkFree, hn, pure, Except.pure]
  | false => simp [checkFree, hn, memcpyFrom_ok h, hp hn, cAssert, bind, Except.bind]

end Memory

variable [Build]

/-- The ring `rb` holds exactly the bytes `q`, oldest first. In a debug build
the cells outside the used region all carry the poison. -/
structure Rep (rb : RingBuffer) (q : List UInt8) : Prop where
  size_pos : 0 < rb.size.toNat
  size_le : rb.size.toNat ≤ ptrdiffMax
  block : rb.buffer.length = rb.size.toNat
  head_lt : rb.head.toNat < rb.size.toNat
  fits : q.length ≤ rb.size.toNat
  tail_eq : rb.tail.toNat = (rb.head.toNat + q.length) % rb.size.toNat
  full_iff : rb.full = true ↔ q.length = rb.size.toNat
  content : window rb.buffer rb.head.toNat q.length = q
  poisoned : Build.ndebug = false →
    window rb.buffer rb.tail.toNat (rb.size.toNat - q.length) =
      List.replicate (rb.size.toNat - q.length) poison

namespace Rep
variable {rb : RingBuffer} {q : List UInt8}

theorem tail_lt (h : Rep rb q) : rb.tail.toNat < rb.size.toNat := by
  rw [h.tail_eq]
  exact Nat.mod_lt _ h.size_pos

/-- The tail is the cell behind the used region, before or after the wrap. -/
theorem tail_cases (h : Rep rb q) :
    (rb.head.toNat + q.length < rb.size.toNat ∧
      rb.tail.toNat = rb.head.toNat + q.length) ∨
    (rb.size.toNat ≤ rb.head.toNat + q.length ∧
      rb.tail.toNat + rb.size.toNat = rb.head.toNat + q.length) := by
  have hh := h.head_lt
  have hf := h.fits
  by_cases hc : rb.head.toNat + q.length < rb.size.toNat
  · exact Or.inl ⟨hc, by rw [h.tail_eq, Nat.mod_eq_of_lt hc]⟩
  · refine Or.inr ⟨by omega, ?_⟩
    rw [h.tail_eq, Nat.mod_eq_sub_mod (by omega), Nat.mod_eq_of_lt (by omega)]
    omega

theorem head_eq_tail (h : Rep rb q) (hf : rb.full = true) : rb.head = rb.tail := by
  have hq := h.full_iff.mp hf
  apply UInt64.toNat_inj.mp
  rcases h.tail_cases with hc | hc <;> omega

theorem usedInner_toNat (h : Rep rb q) : (ringBufferUsedInner rb).toNat = q.length := by
  have hh := h.head_lt
  have hs := h.size_le
  have hf := h.fits
  have hiff := h.full_iff
  unfold ringBufferUsedInner
  unfold ptrdiffMax at hs
  by_cases hfull : rb.full = true
  · rw [if_pos hfull, hiff.mp hfull]
  · have hlt : q.length < rb.size.toNat := by
      have : q.length ≠ rb.size.toNat := fun e => hfull (hiff.mpr e)
      omega
    rw [if_neg hfull]
    rcases h.tail_cases with ⟨hc, ht⟩ | ⟨hc, ht⟩
    · rw [if_pos (UInt64.le_iff_toNat_le.mpr (by omega)),
        UInt64.toNat_sub_of_le _ _ (UInt64.le_iff_toNat_le.mpr (by omega))]
      omega
    · rw [if_neg (fun hle => absurd (UInt64.le_iff_toNat_le.mp hle) (by omega)),
        UInt64.toNat_sub, UInt64.toNat_add]
      omega

theorem usedInner_le (h : Rep rb q) : ringBufferUsedInner rb ≤ rb.size :=
  UInt64.le_iff_toNat_le.mpr (h.usedInner_toNat ▸ h.fits)

theorem freeInner_toNat (h : Rep rb q) :
    (ringBufferFreeInner rb).toNat = rb.size.toNat - q.length := by
  rw [ringBufferFreeInner, UInt64.toNat_sub_of_le _ _ h.usedInner_le, h.usedInner_toNat]

theorem usedExact (h : Rep rb q) : UsedExact rb := by
  have hh := h.head_lt
  have hs := h.size_le
  have ht := h.tail_lt
  unfold ptrdiffMax at hs
  refine ⟨fun _ => ?_, h.usedInner_le⟩
  by_cases hle : rb.head.toNat ≤ rb.tail.toNat
  · exact Or.inl (UInt64.le_iff_toNat_le.mpr hle)
  · exact Or.inr ⟨by omega, by omega⟩

/-- Copies of at most `size` bytes at the head or the tail form exact sums. -/
theorem copyExact (h : Rep rb q) {pos length : UInt64} (hp : pos.toNat < rb.size.toNat)
    (hl : length.toNat ≤ rb.size.toNat) : CopyExact rb pos length := by
  have hs := h.size_le
  unfold ptrdiffMax at hs
  refine ⟨by omega, fun hn => ?_⟩
  have hle : pos ≤ rb.size := UInt64.le_iff_toNat_le.mpr (by omega)
  refine ⟨hle, UInt64.le_iff_toNat_le.mpr ?_⟩
  rw [UInt64.le_iff_toNat_le, UInt64.toNat_add] at hn
  rw [UInt64.toNat_sub_of_le _ _ hle]
  omega

end Rep

section Freed
variable {b : List UInt8} {s n : Nat}

/-- The block after the `n` cells from `s` on, around the end, are freed. -/
def freedAround (buf : List UInt8) (start length : Nat) : List UInt8 :=
  if Build.ndebug then buf else store buf start (List.replicate length poison)

@[simp] theorem length_freedAround : (freedAround b s n).length = b.length := by
  unfold freedAround
  split <;> simp

theorem freed_straight (hs : s < b.length) (h : s + n ≤ b.length) :
    freed b s n = freedAround b s n := by
  unfold freed freedAround
  rw [overwrite_eq_store hs (by simpa using h)]

theorem freed_split (hs : s < b.length) (h : b.length ≤ s + n)
    (hl : n ≤ b.length) :
    freed (freed b s (b.length - s)) 0 (n - (b.length - s)) =
      freedAround b s n := by
  unfold freed freedAround
  cases hn : (Build.ndebug : Bool) with
  | true => simp
  | false =>
      have hr := overwrite_overwrite_eq_store (d := List.replicate n poison) hs
        (by simpa using h) (by simpa using hl)
      have hm : min (b.length - s) n = b.length - s := by omega
      simpa [hm] using hr

/-- Freeing cells leaves the cells in front of them. -/
theorem freed_take {k : Nat} (h : s + n ≤ b.length) (hk : k ≤ s) :
    (freed b s n).take k = b.take k := by
  unfold freed
  split
  · rfl
  · exact overwrite_take (by simpa using h) hk

/-- Freeing cells in front of a window leaves the window. -/
theorem window_freedAround_after {k : Nat} (hs : s < b.length)
    (h : n + k ≤ b.length) :
    window (freedAround b s n) (s + n) k =
      window b (s + n) k := by
  unfold freedAround
  split
  · rfl
  · simpa using window_store_after (d := List.replicate n poison) hs (by simpa using h)

end Freed

namespace Rep
variable {rb : RingBuffer} {q : List UInt8}

theorem window_take (h : Rep rb q) {m : Nat} (hm : m ≤ q.length) :
    window rb.buffer rb.head.toNat m = q.take m := by
  rw [← take_window _ _ hm, h.content]

/-- Taking the oldest `m` bytes out of the ring. -/
theorem remove (h : Rep rb q) {m : Nat} {p : UInt64} (hpos : 0 < m) (hm : m ≤ q.length)
    (hhead : p.toNat = (rb.head.toNat + m) % rb.size.toNat) :
    Rep { rb with buffer := freedAround rb.buffer rb.head.toNat m, head := p, full := false }
      (q.drop m) := by
  have hf := h.fits
  have hh := h.head_lt
  have hb := h.block
  refine ⟨h.size_pos, h.size_le, by simpa using hb, ?_, ?_, ?_, ?_, ?_, ?_⟩
  · rw [hhead]
    exact Nat.mod_lt _ h.size_pos
  · simp only [List.length_drop]
    omega
  · simp only [List.length_drop]
    rw [hhead, h.tail_eq, Nat.mod_add_mod]
    congr 1
    omega
  · simp only [List.length_drop, Bool.false_eq_true, false_iff]
    omega
  · simp only [List.length_drop]
    rw [hhead, ← hb]
    conv_lhs => rw [← length_freedAround (b := rb.buffer) (s := rb.head.toNat) (n := m),
      window_mod]
    rw [window_freedAround_after (by omega) (by omega), ← drop_window _ _ hm (by omega), h.content]
  · intro hd
    have hfree : freedAround rb.buffer rb.head.toNat m =
        store rb.buffer rb.head.toNat (List.replicate m poison) := by
      simp [freedAround, hd]
    have hsum : rb.size.toNat - (q.drop m).length = (rb.size.toNat - q.length) + m := by
      simp only [List.length_drop]
      omega
    -- The free cells now run from the old tail to the new head: the old free
    -- cells, left alone by the store, and then the cells just freed.
    have hwrap : (rb.tail.toNat + (rb.size.toNat - q.length)) % rb.buffer.length =
        rb.head.toNat := by
      rw [h.tail_eq, hb, Nat.mod_add_mod]
      have he : rb.head.toNat + q.length + (rb.size.toNat - q.length) =
          rb.head.toNat + rb.size.toNat := by omega
      rw [he, Nat.add_mod_right, Nat.mod_eq_of_lt hh]
    have hold : window (store rb.buffer rb.head.toNat (List.replicate m poison))
        rb.tail.toNat (rb.size.toNat - q.length) =
          List.replicate (rb.size.toNat - q.length) poison := by
      rw [← h.poisoned hd, ← hwrap]
      exact window_store_before (by have := h.tail_lt; omega) (by simp; omega)
    have hnew : window (store rb.buffer rb.head.toNat (List.replicate m poison))
        (rb.tail.toNat + (rb.size.toNat - q.length)) m = List.replicate m poison := by
      have hself := window_store_self (l := rb.buffer) (s := rb.head.toNat)
        (d := List.replicate m poison) (by omega) (by simp; omega)
      rw [List.length_replicate] at hself
      rw [← window_mod, length_store, hwrap, hself]
    simp only [hfree, hsum]
    rw [window_append _ _ _ _ (by simp; omega), hold, hnew, List.replicate_append_replicate]

/-- Adding the bytes `d` behind the used region. -/
theorem insert (h : Rep rb q) {d : List UInt8} {p : UInt64} (hpos : 0 < d.length)
    (hd : q.length + d.length ≤ rb.size.toNat)
    (htail : p.toNat = (rb.tail.toNat + d.length) % rb.size.toNat) :
    Rep { rb with
      buffer := store rb.buffer rb.tail.toNat d, tail := p,
      full := if rb.head = p then true else rb.full } (q ++ d) := by
  have hh := h.head_lt
  have hb := h.block
  have ht := h.tail_lt
  have hround : p.toNat = (rb.head.toNat + (q.length + d.length)) % rb.size.toNat := by
    rw [htail, h.tail_eq, Nat.mod_add_mod, Nat.add_assoc]
  refine ⟨h.size_pos, h.size_le, by simpa using hb, hh, ?_, ?_, ?_, ?_, ?_⟩
  · simpa using hd
  · simpa using hround
  · have hnf : rb.full ≠ true := by
      intro hf
      have := h.full_iff.mp hf
      omega
    have heq : rb.head = p ↔ q.length + d.length = rb.size.toNat := by
      rw [← UInt64.toNat_inj, hround]
      by_cases hc : rb.head.toNat + (q.length + d.length) < rb.size.toNat
      · rw [Nat.mod_eq_of_lt hc]
        omega
      · rw [Nat.mod_eq_sub_mod (by omega), Nat.mod_eq_of_lt (by omega)]
        omega
    simp [hnf, heq]
  · have hold : window (store rb.buffer rb.tail.toNat d) rb.head.toNat q.length = q := by
      rw [h.tail_eq, ← hb, window_store_before (by omega) (by omega), h.content]
    have hnew : window (store rb.buffer rb.tail.toNat d)
        (rb.head.toNat + q.length) d.length = d := by
      rw [← window_mod, length_store, hb, ← h.tail_eq, window_store_self (by omega) (by omega)]
    simp only [List.length_append]
    rw [window_append _ _ _ _ (by simp; omega), hold, hnew]
  · intro hp
    simp only [List.length_append]
    have hlen : (store rb.buffer rb.tail.toNat d).length = rb.size.toNat := by simpa using hb
    have hpoison := h.poisoned hp
    rw [htail]
    conv_lhs => rw [← hlen, window_mod, hlen]
    rw [window_store_after (by omega) (by omega), Nat.sub_add_eq,
      ← drop_window _ _ (by omega) (by omega), hpoison, List.drop_replicate]

end Rep

/-- A fresh ring is empty, whatever the allocator returned. -/
theorem ringBufferInit_rep {answer : Option (Nat → UInt8)} {size : UInt64} {rb : RingBuffer}
    (hpos : size ≠ 0) (h : ringBufferInit answer size = .ok (some rb)) :
    Rep rb [] ∧ rb.size = size := by
  unfold ringBufferInit malloc at h
  by_cases hs : size.toNat ≤ ptrdiffMax
  · cases answer with
    | none => simp [hs] at h
    | some c =>
        have hmark := markFree_ok (b := (List.range size.toNat).map c) (s := 0)
          (n := size.toNat) (by simp)
        simp only [hs, if_true, Option.map_some, hmark, bind, Except.bind, pure, Except.pure,
          Except.ok.injEq, Option.some.injEq] at h
        have h0 := toNat_pos hpos
        subst h
        refine ⟨⟨h0, hs, by simp, by simpa using h0, by simp, by simp, by simp; omega,
          by simp, fun hd => ?_⟩, rfl⟩
        simp only [freed, hd]
        rw [show (0 : UInt64).toNat = 0 from rfl, window_straight (by simp)]
        simp [overwrite]
  · simp [hs] at h

section ReadCommon
variable {rb : RingBuffer} {q : List UInt8} {length : UInt64}

theorem cAssert_ne_zero (hl : length ≠ 0) : cAssert (length != 0) = .ok () := by
  simp [cAssert, hl]

theorem ringBufferReadCommon_refuse (h : Rep rb q) (hl : length ≠ 0) (remove : Bool)
    (hlt : q.length < length.toNat) :
    ringBufferReadCommon rb length remove = .ok (none, rb) := by
  have hused := h.usedInner_toNat
  have hgt : length > ringBufferUsedInner rb := UInt64.lt_iff_toNat_lt.mpr (by omega)
  simp [ringBufferReadCommon, cAssert_ne_zero hl, hgt, bind, Except.bind, pure, Except.pure]

/-- What the read of `length` stored bytes delivers and leaves. -/
def ReadsPrefix (rb : RingBuffer) (q : List UInt8) (length : UInt64) (remove : Bool) : Prop :=
  ∃ rb', ringBufferReadCommon rb length remove = .ok (some (q.take length.toNat), rb') ∧
    Rep rb' (if remove then q.drop length.toNat else q) ∧
    rb'.size = rb.size ∧ (remove = false → rb' = rb)

/-- The branch in which the bytes do not pass the end of the block. -/
theorem readsPrefix_straight (h : Rep rb q) (hl : length ≠ 0) (remove : Bool)
    (hle : length.toNat ≤ q.length) (hstr : rb.head + length ≤ rb.size) :
    ReadsPrefix rb q length remove := by
  have hpos := toNat_pos hl
  have hassert := cAssert_ne_zero hl
  have hused := h.usedInner_toNat
  have hh := h.head_lt
  have hb := h.block
  have hf := h.fits
  have hs := h.size_le
  unfold ptrdiffMax at hs
  have hngt : ¬ length > ringBufferUsedInner rb := fun hc =>
    absurd (UInt64.lt_iff_toNat_lt.mp hc) (by omega)
  have hsum : (rb.head + length).toNat = rb.head.toNat + length.toNat := by
    rw [UInt64.toNat_add]
    omega
  have hle' : rb.head.toNat + length.toNat ≤ rb.size.toNat := by
    rw [← hsum]
    exact UInt64.le_iff_toNat_le.mp hstr
  have hout : (rb.buffer.drop rb.head.toNat).take length.toNat = q.take length.toNat := by
    rw [← window_straight (by omega), h.window_take hle]
  have hcopy := memcpyFrom_ok (b := rb.buffer) (s := rb.head.toNat)
    (n := length.toNat) (by omega)
  have hmark := markFree_ok (b := rb.buffer) (s := rb.head.toNat)
    (n := length.toNat) (by omega)
  rw [freed_straight (by omega) (by omega)] at hmark
  cases remove with
  | false =>
      refine ⟨rb, ?_, by simpa using h, rfl, fun _ => rfl⟩
      simp [ringBufferReadCommon, hassert, hngt, hstr, hcopy, hout, bind, Except.bind,
        pure, Except.pure]
  | true =>
      refine ⟨_, ?_, h.remove (p := if rb.head + length = rb.size then 0
        else rb.head + length) hpos hle ?_, rfl, by simp⟩
      · simp [ringBufferReadCommon, hassert, hngt, hstr, hcopy, hout, hmark, bind,
          Except.bind, pure, Except.pure]
      · split
        · next he =>
            have : rb.head.toNat + length.toNat = rb.size.toNat := by rw [← hsum, he]
            simp [this]
        · next he =>
            have hne : (rb.head + length).toNat ≠ rb.size.toNat :=
              fun e => he (UInt64.toNat_inj.mp e)
            rw [hsum, Nat.mod_eq_of_lt (by omega)]

/-- The branch in which the bytes go around the end of the block. -/
theorem readsPrefix_split (h : Rep rb q) (hl : length ≠ 0) (remove : Bool)
    (hle : length.toNat ≤ q.length) (hstr : ¬ rb.head + length ≤ rb.size) :
    ReadsPrefix rb q length remove := by
  have hpos := toNat_pos hl
  have hassert := cAssert_ne_zero hl
  have hused := h.usedInner_toNat
  have hh := h.head_lt
  have hb := h.block
  have hf := h.fits
  have hs := h.size_le
  unfold ptrdiffMax at hs
  have hngt : ¬ length > ringBufferUsedInner rb := fun hc =>
    absurd (UInt64.lt_iff_toNat_lt.mp hc) (by omega)
  have hgt : rb.size.toNat < rb.head.toNat + length.toNat := by
    rw [UInt64.le_iff_toNat_le, UInt64.toNat_add] at hstr
    omega
  have hcl : (rb.size - rb.head).toNat = rb.size.toNat - rb.head.toNat :=
    UInt64.toNat_sub_of_le _ _ (UInt64.le_iff_toNat_le.mpr (by omega))
  have hnl : (length - (rb.size - rb.head)).toNat =
      length.toNat - (rb.size.toNat - rb.head.toNat) := by
    rw [UInt64.toNat_sub_of_le _ _ (UInt64.le_iff_toNat_le.mpr (by omega)), hcl]
  have hout : (rb.buffer.drop rb.head.toNat).take (rb.size.toNat - rb.head.toNat) ++
      rb.buffer.take (length.toNat - (rb.size.toNat - rb.head.toNat)) =
        q.take length.toNat := by
    rw [← h.window_take hle, window_split (by omega) (by omega) (by omega),
      List.take_of_length_le (by simp; omega)]
    congr 2
    omega
  have hcopy₁ := memcpyFrom_ok (b := rb.buffer) (s := rb.head.toNat)
    (n := rb.size.toNat - rb.head.toNat) (by omega)
  cases remove with
  | false =>
      have hcopy₂ := memcpyFrom_ok (b := rb.buffer) (s := 0)
        (n := length.toNat - (rb.size.toNat - rb.head.toNat)) (by omega)
      refine ⟨rb, ?_, by simpa using h, rfl, fun _ => rfl⟩
      simp [ringBufferReadCommon, hassert, hngt, hstr, hcl, hnl, hcopy₁, hcopy₂, ← hout, bind,
        Except.bind, pure, Except.pure]
  | true =>
      have hmark₁ := markFree_ok (b := rb.buffer) (s := rb.head.toNat)
        (n := rb.size.toNat - rb.head.toNat) (by omega)
      have hlen₁ : (freed rb.buffer rb.head.toNat
          (rb.size.toNat - rb.head.toNat)).length = rb.size.toNat := by
        rw [length_freed (by omega), hb]
      have hcopy₂ := memcpyFrom_ok (b := freed rb.buffer rb.head.toNat
        (rb.size.toNat - rb.head.toNat)) (s := 0)
        (n := length.toNat - (rb.size.toNat - rb.head.toNat)) (by omega)
      have hmark₂ := markFree_ok (b := freed rb.buffer rb.head.toNat
        (rb.size.toNat - rb.head.toNat)) (s := 0)
        (n := length.toNat - (rb.size.toNat - rb.head.toNat)) (by omega)
      have hsplit := freed_split (b := rb.buffer) (s := rb.head.toNat)
        (n := length.toNat) (by omega) (by omega) (by omega)
      rw [hb] at hsplit
      -- The first freed part ends at the end of the block, so the second copy
      -- reads the old bytes.
      have hkeep := freed_take (b := rb.buffer) (s := rb.head.toNat)
        (n := rb.size.toNat - rb.head.toNat)
        (k := length.toNat - (rb.size.toNat - rb.head.toNat)) (by omega) (by omega)
      refine ⟨_, ?_, h.remove (p := length - (rb.size - rb.head)) hpos hle ?_, rfl, by simp⟩
      · simp [ringBufferReadCommon, hassert, hngt, hstr, hcl, hnl, hcopy₁, hcopy₂, hmark₁,
          hmark₂, hsplit, hkeep, ← hout, bind, Except.bind, pure, Except.pure]
      · rw [hnl, Nat.mod_eq_sub_mod (by omega), Nat.mod_eq_of_lt (by omega)]
        omega

/-- `ring_buffer_read_common` delivers stored bytes exactly when there are enough. -/
theorem readsPrefix (h : Rep rb q) (hl : length ≠ 0) (remove : Bool)
    (hle : length.toNat ≤ q.length) : ReadsPrefix rb q length remove := by
  by_cases hstr : rb.head + length ≤ rb.size
  · exact readsPrefix_straight h hl remove hle hstr
  · exact readsPrefix_split h hl remove hle hstr

end ReadCommon

section Write
variable {rb : RingBuffer} {q buffer : List UInt8} {length : UInt64}

theorem ringBufferWrite_refuse (h : Rep rb q) (hl : length ≠ 0)
    (hlt : rb.size.toNat - q.length < length.toNat) :
    ringBufferWrite rb buffer length = .ok (false, rb) := by
  have hfree := h.freeInner_toNat
  have hgt : length > ringBufferFreeInner rb := UInt64.lt_iff_toNat_lt.mpr (by omega)
  simp [ringBufferWrite, cAssert_ne_zero hl, hgt, bind, Except.bind, pure, Except.pure]

/-- What the write of `length` bytes leaves when they fit. -/
def WritesSuffix (rb : RingBuffer) (q buffer : List UInt8) (length : UInt64) : Prop :=
  ∃ rb', ringBufferWrite rb buffer length = .ok (true, rb') ∧
    Rep rb' (q ++ buffer.take length.toNat) ∧ rb'.size = rb.size

/-- Every cell that a fitting write goes to is free, hence poisoned. -/
theorem Rep.poisoned_prefix (h : Rep rb q) {m : Nat} (hm : m ≤ rb.size.toNat - q.length)
    (hd : Build.ndebug = false) :
    window rb.buffer rb.tail.toNat m = List.replicate m poison := by
  rw [← take_window _ _ hm, h.poisoned hd, List.take_replicate, Nat.min_eq_left hm]

theorem writesSuffix_straight (h : Rep rb q) (hl : length ≠ 0)
    (hbuf : length.toNat ≤ buffer.length) (hle : length.toNat ≤ rb.size.toNat - q.length)
    (hstr : rb.tail + length ≤ rb.size) : WritesSuffix rb q buffer length := by
  have hpos := toNat_pos hl
  have hassert := cAssert_ne_zero hl
  have hfree := h.freeInner_toNat
  have ht := h.tail_lt
  have hb := h.block
  have hf := h.fits
  have hs := h.size_le
  unfold ptrdiffMax at hs
  have hngt : ¬ length > ringBufferFreeInner rb := fun hc =>
    absurd (UInt64.lt_iff_toNat_lt.mp hc) (by omega)
  have hsum : (rb.tail + length).toNat = rb.tail.toNat + length.toNat := by
    rw [UInt64.toNat_add]
    omega
  have hdl : (buffer.take length.toNat).length = length.toNat :=
    List.length_take_of_le hbuf
  have hle' : rb.tail.toNat + length.toNat ≤ rb.size.toNat := by
    rw [← hsum]
    exact UInt64.le_iff_toNat_le.mp hstr
  have hcheck := checkFree_ok (b := rb.buffer) (s := rb.tail.toNat)
    (n := length.toNat) (by omega) (fun hd => by
      rw [← window_straight (by omega), h.poisoned_prefix hle hd])
  have hcopy := memcpyFrom_ok (b := buffer) (s := 0)
    (n := length.toNat) (by omega)
  have hstore := memcpyTo_ok (b := rb.buffer) (s := rb.tail.toNat)
    (d := buffer.take length.toNat) (by omega)
  rw [overwrite_eq_store (by omega) (by omega)] at hstore
  refine ⟨_, ?_, h.insert (d := buffer.take length.toNat)
    (p := if rb.tail + length = rb.size then 0 else rb.tail + length)
    (by omega) (by omega) ?_, rfl⟩
  · simp [ringBufferWrite, hassert, hngt, hstr, hcheck, hcopy, hstore, bind,
      Except.bind, pure, Except.pure]
  · rw [hdl]
    split
    · next he =>
        have : rb.tail.toNat + length.toNat = rb.size.toNat := by rw [← hsum, he]
        simp [this]
    · next he =>
        have hne : (rb.tail + length).toNat ≠ rb.size.toNat :=
          fun e => he (UInt64.toNat_inj.mp e)
        rw [hsum, Nat.mod_eq_of_lt (by omega)]

theorem writesSuffix_split (h : Rep rb q) (hl : length ≠ 0)
    (hbuf : length.toNat ≤ buffer.length) (hle : length.toNat ≤ rb.size.toNat - q.length)
    (hstr : ¬ rb.tail + length ≤ rb.size) : WritesSuffix rb q buffer length := by
  have hpos := toNat_pos hl
  have hassert := cAssert_ne_zero hl
  have hfree := h.freeInner_toNat
  have ht := h.tail_lt
  have hb := h.block
  have hf := h.fits
  have hs := h.size_le
  unfold ptrdiffMax at hs
  have hngt : ¬ length > ringBufferFreeInner rb := fun hc =>
    absurd (UInt64.lt_iff_toNat_lt.mp hc) (by omega)
  have hgt : rb.size.toNat < rb.tail.toNat + length.toNat := by
    rw [UInt64.le_iff_toNat_le, UInt64.toNat_add] at hstr
    omega
  have hdl : (buffer.take length.toNat).length = length.toNat :=
    List.length_take_of_le hbuf
  have hcl : (rb.size - rb.tail).toNat = rb.size.toNat - rb.tail.toNat :=
    UInt64.toNat_sub_of_le _ _ (UInt64.le_iff_toNat_le.mpr (by omega))
  have hnl : (length - (rb.size - rb.tail)).toNat =
      length.toNat - (rb.size.toNat - rb.tail.toNat) := by
    rw [UInt64.toNat_sub_of_le _ _ (UInt64.le_iff_toNat_le.mpr (by omega)), hcl]
  have hcheck₁ := checkFree_ok (b := rb.buffer) (s := rb.tail.toNat)
    (n := rb.size.toNat - rb.tail.toNat) (by omega) (fun hd => by
      rw [← window_straight (by omega), h.poisoned_prefix (by omega) hd])
  have hcopy₁ := memcpyFrom_ok (b := buffer) (s := 0)
    (n := rb.size.toNat - rb.tail.toNat) (by omega)
  have hd₁ : (buffer.take (rb.size.toNat - rb.tail.toNat)).length =
      rb.size.toNat - rb.tail.toNat := List.length_take_of_le (by omega)
  have hstore₁ := memcpyTo_ok (b := rb.buffer) (s := rb.tail.toNat)
    (d := buffer.take (rb.size.toNat - rb.tail.toNat)) (by omega)
  have hlen₁ : (overwrite rb.buffer rb.tail.toNat
      (buffer.take (rb.size.toNat - rb.tail.toNat))).length = rb.size.toNat := by
    rw [length_overwrite (by omega), hb]
  -- The second part goes to cells in front of the tail, which the first left alone.
  have hprefix := overwrite_take (l := rb.buffer) (s := rb.tail.toNat)
    (d := buffer.take (rb.size.toNat - rb.tail.toNat))
    (k := length.toNat - (rb.size.toNat - rb.tail.toNat)) (by omega) (by omega)
  have hcheck₂ := checkFree_ok (b := overwrite rb.buffer rb.tail.toNat
    (buffer.take (rb.size.toNat - rb.tail.toNat))) (s := 0)
    (n := length.toNat - (rb.size.toNat - rb.tail.toNat)) (by omega) (fun hd => by
      have hw := h.poisoned_prefix hle hd
      rw [window_split (by omega) (by omega) (by omega)] at hw
      have htail := congrArg (List.drop (rb.size.toNat - rb.tail.toNat)) hw
      rw [List.drop_left' (by simp; omega), List.drop_replicate] at htail
      rw [List.drop_zero, hprefix, ← htail]
      congr 1
      omega)
  have hcopy₂ := memcpyFrom_ok (b := buffer) (s := rb.size.toNat - rb.tail.toNat)
    (n := length.toNat - (rb.size.toNat - rb.tail.toNat)) (by omega)
  have hd₂ : ((buffer.drop (rb.size.toNat - rb.tail.toNat)).take
      (length.toNat - (rb.size.toNat - rb.tail.toNat))).length =
      length.toNat - (rb.size.toNat - rb.tail.toNat) := by simp; omega
  have hstore₂ := memcpyTo_ok (b := overwrite rb.buffer rb.tail.toNat
    (buffer.take (rb.size.toNat - rb.tail.toNat))) (s := 0)
    (d := (buffer.drop (rb.size.toNat - rb.tail.toNat)).take
      (length.toNat - (rb.size.toNat - rb.tail.toNat))) (by omega)
  have hsplit := overwrite_overwrite_eq_store (l := rb.buffer) (s := rb.tail.toNat)
    (d := buffer.take length.toNat) (by omega) (by omega) (by omega)
  rw [hb, List.take_take, List.drop_take, Nat.min_eq_left (by omega)] at hsplit
  refine ⟨_, ?_, h.insert (d := buffer.take length.toNat)
    (p := length - (rb.size - rb.tail)) (by omega) (by omega) ?_, rfl⟩
  · simp [ringBufferWrite, hassert, hngt, hstr, hcl, hnl, hcheck₁, hcopy₁, hstore₁, hcheck₂,
      hcopy₂, hstore₂, hsplit, bind, Except.bind, pure, Except.pure]
  · rw [hnl, hdl, Nat.mod_eq_sub_mod (by omega), Nat.mod_eq_of_lt (by omega)]
    omega

/-- `ring_buffer_write` appends the bytes exactly when they fit. -/
theorem writesSuffix (h : Rep rb q) (hl : length ≠ 0)
    (hbuf : length.toNat ≤ buffer.length) (hle : length.toNat ≤ rb.size.toNat - q.length) :
    WritesSuffix rb q buffer length := by
  by_cases hstr : rb.tail + length ≤ rb.size
  · exact writesSuffix_straight h hl hbuf hle hstr
  · exact writesSuffix_split h hl hbuf hle hstr

end Write

section Kept
variable {rb rb' : RingBuffer} {q : List UInt8} {length : UInt64}

/-- A read of no bytes passes in a release build only, and empties a full ring. -/
theorem ringBufferRead_zero (h : Rep rb q) {out : Option (List UInt8)}
    (hrun : ringBufferRead rb 0 = .ok (out, rb')) :
    ∃ q', Rep rb' q' ∧ q'.length ≤ q.length ∧ rb'.size = rb.size := by
  have hrelease : Build.ndebug = true := by
    cases hn : (Build.ndebug : Bool) with
    | true => rfl
    | false => simp [ringBufferRead, ringBufferReadCommon, cAssert, hn, bind, Except.bind] at hrun
  have hhead := h.head_lt
  have hne : rb.head ≠ rb.size := by
    intro he
    rw [he] at hhead
    exact absurd hhead (Nat.lt_irrefl _)
  have hle : rb.head ≤ rb.size := UInt64.le_iff_toNat_le.mpr (Nat.le_of_lt hhead)
  have hcopy : memcpyFrom rb.buffer rb.head.toNat 0 = .ok [] := by
    simp [memcpyFrom, h.block, Nat.le_of_lt hhead]
  have hresult : rb' = { rb with full := false } := by
    simp [ringBufferRead, ringBufferReadCommon, cAssert, markFree, hrelease, hle, hne, hcopy,
      bind, Except.bind, pure, Except.pure] at hrun
    exact hrun.2.symm
  subst hresult
  cases hfull : rb.full with
  | false =>
      refine ⟨q, ?_, Nat.le_refl _, rfl⟩
      rw [← hfull]
      exact h
  | true =>
      have hpos := h.size_pos
      refine ⟨[], ⟨hpos, h.size_le, h.block, hhead, Nat.zero_le _, ?_, ?_, rfl, ?_⟩,
        Nat.zero_le _, rfl⟩
      · rw [← h.head_eq_tail hfull, List.length_nil, Nat.add_zero, Nat.mod_eq_of_lt hhead]
      · simp [Nat.ne_of_lt hpos]
      · intro hn
        rw [hn] at hrelease
        cases hrelease

/-- A read of any length leaves a ring with no more bytes. -/
theorem ringBufferRead_keeps (h : Rep rb q) {out : Option (List UInt8)}
    (hrun : ringBufferRead rb length = .ok (out, rb')) :
    ∃ q', Rep rb' q' ∧ q'.length ≤ q.length ∧ rb'.size = rb.size := by
  by_cases hl : length = 0
  · subst hl
    exact ringBufferRead_zero h hrun
  · rcases Nat.lt_or_ge q.length length.toNat with hlt | hge
    · have hrefuse := ringBufferReadCommon_refuse h hl true hlt
      obtain ⟨-, rfl⟩ := Prod.mk.inj (Except.ok.inj (hrun.symm.trans hrefuse))
      exact ⟨q, h, Nat.le_refl _, rfl⟩
    · obtain ⟨rb₁, hread, hrep, hsize, -⟩ := readsPrefix h hl true hge
      obtain ⟨-, rfl⟩ := Prod.mk.inj (Except.ok.inj (hrun.symm.trans hread))
      exact ⟨_, hrep, by simp, hsize⟩

/-- A write that is not empty leaves a ring with no fewer bytes. -/
theorem ringBufferWrite_keeps (h : Rep rb q) (hl : length ≠ 0) {buffer : List UInt8}
    (hbuf : length.toNat ≤ buffer.length) {ok : Bool}
    (hrun : ringBufferWrite rb buffer length = .ok (ok, rb')) :
    ∃ q', Rep rb' q' ∧ q.length ≤ q'.length ∧ rb'.size = rb.size := by
  rcases Nat.lt_or_ge (rb.size.toNat - q.length) length.toNat with hlt | hge
  · have hrefuse : ringBufferWrite rb buffer length = .ok (false, rb) :=
      ringBufferWrite_refuse h hl hlt
    obtain ⟨-, rfl⟩ := Prod.mk.inj (Except.ok.inj (hrun.symm.trans hrefuse))
    exact ⟨q, h, Nat.le_refl _, rfl⟩
  · obtain ⟨rb₁, hwrite, hrep, hsize⟩ := writesSuffix h hl hbuf hge
    obtain ⟨-, rfl⟩ := Prod.mk.inj (Except.ok.inj (hrun.symm.trans hwrite))
    exact ⟨_, hrep, by simp, hsize⟩

end Kept

end UoftOs.MsgQueue
