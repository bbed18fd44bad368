import Mathlib.Algebra.Group.Nat.Defs
import Mathlib.Data.List.Basic

/-!
# Length-prefixed frames

A message is stored as a header of fixed width that holds its length, followed
by its body. `leBytes` is the little-endian header.
-/

namespace UoftOs.Lib.Frames

/-- The `k` low bytes of `n`, least significant first. -/
def leBytes : Nat → Nat → List UInt8
  | 0, _ => []
  | k + 1, n => UInt8.ofNat n :: leBytes k (n / 256)

/-- The number a little-endian byte string stands for. -/
def leValue : List UInt8 → Nat
  | [] => 0
  | b :: bs => b.toNat + 256 * leValue bs

@[simp] theorem length_leBytes (k n : Nat) : (leBytes k n).length = k := by
  induction k generalizing n with
  | zero => rfl
  | succ k ih => simp [leBytes, ih]

theorem leValue_leBytes (k n : Nat) : leValue (leBytes k n) = n % 256 ^ k := by
  induction k generalizing n with
  | zero => simp [leBytes, leValue, Nat.mod_one]
  | succ k ih =>
      have hb : (UInt8.ofNat n).toNat = n % 256 := by simp
      rw [leBytes, leValue, ih, hb, Nat.pow_succ, Nat.mul_comm (256 ^ k), Nat.mod_mul]

theorem leValue_lt (bs : List UInt8) : leValue bs < 256 ^ bs.length := by
  induction bs with
  | nil => simp [leValue]
  | cons b bs ih =>
      have hb := b.toNat_lt
      rw [leValue, List.length_cons, Nat.pow_succ]
      omega

/-- One message with a header of `w` bytes. -/
def frame (w : Nat) (m : List UInt8) : List UInt8 := leBytes w m.length ++ m

/-- A sequence of messages, oldest first. -/
def frames (w : Nat) (ms : List (List UInt8)) : List UInt8 := ms.flatMap (frame w)

variable {w : Nat} {m : List UInt8} {ms : List (List UInt8)}

@[simp] theorem length_frame : (frame w m).length = w + m.length := by
  simp [frame]

@[simp] theorem frames_nil : frames w [] = [] := rfl

theorem frames_cons : frames w (m :: ms) = frame w m ++ frames w ms := rfl

theorem frames_concat : frames w (ms ++ [m]) = frames w ms ++ frame w m := by
  simp [frames]

/-- The header in front of a frame sequence is the first message's length. -/
theorem header_frames_cons (h : m.length < 256 ^ w) :
    leValue ((frames w (m :: ms)).take w) = m.length := by
  rw [frames_cons, frame, List.append_assoc, List.take_left' (length_leBytes _ _),
    leValue_leBytes, Nat.mod_eq_of_lt h]

theorem drop_header_frames_cons :
    (frames w (m :: ms)).drop w = m ++ frames w ms := by
  rw [frames_cons, frame, List.append_assoc, List.drop_left' (length_leBytes _ _)]

/-- A non-empty sequence of frames has at least a header. -/
theorem width_le_length_frames_cons : w ≤ (frames w (m :: ms)).length := by
  rw [frames_cons, List.length_append, length_frame]
  omega

theorem frames_eq_nil_iff (hw : 0 < w) : frames w ms = [] ↔ ms = [] := by
  constructor
  · intro h
    cases ms with
    | nil => rfl
    | cons m ms =>
        have hwide : w ≤ (frames w (m :: ms)).length := width_le_length_frames_cons
        rw [h] at hwide
        simp at hwide
        omega
  · rintro rfl
    rfl

/-- The messages of a frame sequence are determined by its bytes. -/
theorem frames_injective (hw : 0 < w) {ns : List (List UInt8)}
    (hm : ∀ m ∈ ms, m.length < 256 ^ w) (hn : ∀ n ∈ ns, n.length < 256 ^ w)
    (h : frames w ms = frames w ns) : ms = ns := by
  induction ms generalizing ns with
  | nil => exact ((frames_eq_nil_iff hw).mp h.symm).symm
  | cons m ms ih =>
      cases ns with
      | nil => exact (frames_eq_nil_iff hw).mp h
      | cons n ns =>
          have hlen : m.length = n.length := by
            have hfirst : leValue ((frames w (m :: ms)).take w) = m.length :=
              header_frames_cons (hm m (by simp))
            rw [← hfirst, h, header_frames_cons (hn n (by simp))]
          have hbody : m ++ frames w ms = n ++ frames w ns := by
            rw [← drop_header_frames_cons, h, drop_header_frames_cons]
          obtain ⟨rfl, hrest⟩ := List.append_inj hbody hlen
          rw [ih (fun k hk => hm k (by simp [hk])) (fun k hk => hn k (by simp [hk])) hrest]

end UoftOs.Lib.Frames
