import Mathlib.Data.List.Nodup
import Mathlib.Logic.Function.Basic

/-!
# Paths and rings of pointers

A path follows a pointer function from one point over a list of others to an end. A
ring is a path from a point back to it, in both directions and without repetitions.
A new point is linked in between two neighbours and a point is taken out by changing
the pointers of the neighbours.
-/

namespace UoftOs.Lib.Rings

variable {A : Type*} {f g next prev : A → A} {a b c e : A} {as bs xs : List A}

/-- Following `f` from `a` meets the points of the list, then `b`. -/
def Path (f : A → A) : A → List A → A → Prop
  | a, [], b => f a = b
  | a, x :: xs, b => f a = x ∧ Path f x xs b

theorem Path.congr (h : Path f a xs b) (hsame : ∀ x ∈ a :: xs, g x = f x) : Path g a xs b := by
  induction xs generalizing a with
  | nil => exact (hsame a List.mem_cons_self).trans h
  | cons x xs ih =>
      exact ⟨(hsame a List.mem_cons_self).trans h.1,
        ih h.2 fun y hy => hsame y (List.mem_cons_of_mem _ hy)⟩

/-- A path from another start with the same pointer. -/
theorem Path.restart (h : Path f a xs b) (hstart : g c = f a) (hsame : ∀ x ∈ xs, g x = f x) :
    Path g c xs b := by
  cases xs with
  | nil => exact hstart.trans h
  | cons x xs => exact ⟨hstart.trans h.1, h.2.congr hsame⟩

/-- The pointer at the start leads to the first point, or to the end. -/
theorem Path.first (h : Path f a xs b) : f a = xs.headD b := by
  cases xs with
  | nil => exact h
  | cons x xs => exact h.1

theorem path_append : Path f a (as ++ e :: bs) b ↔ Path f a as e ∧ Path f e bs b := by
  induction as generalizing a with
  | nil => rfl
  | cons x as ih => rw [List.cons_append, Path, ih, Path, and_assoc]

/-- A path over two lists goes to the first point of the second and on from there. -/
theorem path_seam :
    Path f a (as ++ bs) b ↔ Path f a as (bs.headD b) ∧ Path f (as.getLastD a) bs b := by
  induction as generalizing a with
  | nil => exact ⟨fun h => ⟨h.first, h⟩, fun h => h.2⟩
  | cons x as ih => rw [List.cons_append, Path, ih, Path, and_assoc, List.getLastD_cons]

/-- The points after a place of a list without repetitions differ from the one before it. -/
theorem ne_getLastD (hnodup : (a :: (as ++ bs)).Nodup) {x : A} (hx : x ∈ bs) :
    x ≠ as.getLastD a := by
  rintro rfl
  rw [← List.cons_append, List.nodup_append] at hnodup
  exact hnodup.2.2 _ List.getLastD_mem_cons _ hx rfl

variable [DecidableEq A]

/-- Another end, by a change of the last pointer. -/
theorem Path.relink (h : Path f a xs b) (hnodup : (a :: xs).Nodup) :
    Path (Function.update f (xs.getLastD a) c) a xs c := by
  induction xs generalizing a with
  | nil => exact Function.update_self ..
  | cons x xs ih =>
      obtain ⟨hfresh, hrest⟩ := List.nodup_cons.mp hnodup
      have hlast : (x :: xs).getLastD a ∈ x :: xs := by
        rw [List.getLastD_cons]
        exact List.getLastD_mem_cons
      have hne : a ≠ (x :: xs).getLastD a := fun heq => hfresh (heq ▸ hlast)
      refine ⟨(Function.update_of_ne hne ..).trans h.1, ?_⟩
      rw [List.getLastD_cons]
      exact ih h.2 hrest

theorem Path.insert (h : Path f a (as ++ bs) b) (hnodup : (a :: (as ++ bs)).Nodup)
    (he : e ∉ a :: (as ++ bs)) :
    Path (Function.update (Function.update f e (bs.headD b)) (as.getLastD a) e) a
      (as ++ e :: bs) b := by
  obtain ⟨hbefore, hafter⟩ := path_seam.mp h
  rw [← List.cons_append, List.mem_append, not_or] at he
  have hlast : e ≠ as.getLastD a := fun heq => he.1 (heq ▸ List.getLastD_mem_cons)
  refine path_append.mpr ⟨?_, hafter.restart ?_ fun x hx => ?_⟩
  · have hsame : Path (Function.update f e (bs.headD b)) a as (bs.headD b) :=
      hbefore.congr fun x hx => Function.update_of_ne (ne_of_mem_of_not_mem hx he.1) ..
    rw [← List.cons_append, List.nodup_append] at hnodup
    exact hsame.relink hnodup.1
  · rw [Function.update_of_ne hlast, Function.update_self, hafter.first]
  · rw [Function.update_of_ne (ne_getLastD hnodup hx),
      Function.update_of_ne (ne_of_mem_of_not_mem hx he.2)]

theorem Path.delete (h : Path f a (as ++ e :: bs) b) (hnodup : (a :: (as ++ e :: bs)).Nodup) :
    Path (Function.update f (as.getLastD a) (f e)) a (as ++ bs) b := by
  obtain ⟨hbefore, hafter⟩ := path_append.mp h
  refine path_seam.mpr ⟨?_, hafter.restart (Function.update_self ..) fun x hx => ?_⟩
  · rw [← hafter.first]
    rw [← List.cons_append, List.nodup_append] at hnodup
    exact hbefore.relink hnodup.1
  · exact Function.update_of_ne (ne_getLastD hnodup (List.mem_cons_of_mem _ hx)) ..

omit [DecidableEq A]

/-- The points around `a` in the order of `next`, and in reverse in the order of `prev`. -/
structure Ring (next prev : A → A) (a : A) (xs : List A) : Prop where
  forward : Path next a xs a
  backward : Path prev a xs.reverse a
  nodup : (a :: xs).Nodup

namespace Ring

theorem congr {next' prev' : A → A} (h : Ring next prev a xs)
    (hsame : ∀ x ∈ a :: xs, next' x = next x ∧ prev' x = prev x) : Ring next' prev' a xs where
  forward := h.forward.congr fun x hx => (hsame x hx).1
  backward := h.backward.congr fun x hx => (hsame x (by simpa using hx)).2
  nodup := h.nodup

theorem next_start (h : Ring next prev a xs) : next a = xs.headD a := h.forward.first

theorem prev_start (h : Ring next prev a xs) : prev a = xs.getLastD a := by
  rw [h.backward.first, List.headD_eq_head?_getD, List.head?_reverse, List.getLastD_eq_getLast?]

theorem next_mem (h : Ring next prev a (as ++ e :: bs)) : next e = bs.headD a :=
  (path_append.mp h.forward).2.first

theorem prev_mem (h : Ring next prev a (as ++ e :: bs)) : prev e = as.getLastD a := by
  have hback := h.backward
  rw [List.reverse_append, List.reverse_cons, List.append_assoc, List.singleton_append] at hback
  rw [(path_append.mp hback).2.first, List.headD_eq_head?_getD, List.head?_reverse,
    List.getLastD_eq_getLast?]

/-- The pointer that leads back after one point leaves no room for others. -/
theorem eq_singleton (h : Ring next prev a xs) (hnext : next a = e) (hback : next e = a)
    (he : e ≠ a) : xs = [e] := by
  have hforward := h.forward
  cases xs with
  | nil => exact absurd (hnext.symm.trans hforward) he
  | cons x xs =>
      obtain rfl : e = x := hnext.symm.trans hforward.1
      cases xs with
      | nil => rfl
      | cons y ys =>
          obtain rfl : a = y := hback.symm.trans hforward.2.1
          exact absurd (List.mem_cons_of_mem _ List.mem_cons_self) (List.nodup_cons.mp h.nodup).1

theorem nodup_reverse (h : (a :: (as ++ bs)).Nodup) : (a :: (bs.reverse ++ as.reverse)).Nodup := by
  rw [← List.reverse_append, List.nodup_cons, List.mem_reverse, List.nodup_reverse]
  exact List.nodup_cons.mp h

theorem empty (hnext : next a = a) (hprev : prev a = a) : Ring next prev a [] :=
  ⟨hnext, hprev, List.nodup_singleton a⟩

variable [DecidableEq A]

/-- A new point `e` between the last point of `as` and the first of `bs`. -/
theorem insert {p n : A} (h : Ring next prev a (as ++ bs)) (he : e ∉ a :: (as ++ bs))
    (hp : p = as.getLastD a) (hn : n = bs.headD a) :
    Ring (Function.update (Function.update next e n) p e)
      (Function.update (Function.update prev n e) e p) a (as ++ e :: bs) where
  forward := by
    rw [hp, hn]
    exact h.forward.insert h.nodup he
  backward := by
    have hrev : e ∉ a :: (bs.reverse ++ as.reverse) := by
      rw [← List.reverse_append, List.mem_cons, List.mem_reverse, ← List.mem_cons]
      exact he
    have hback := h.backward
    rw [List.reverse_append] at hback
    have hinsert := hback.insert (nodup_reverse h.nodup) hrev
    have hne : e ≠ bs.headD a := by
      intro heq
      cases bs with
      | nil => exact he (heq ▸ List.mem_cons_self)
      | cons b bs => exact he (heq ▸ List.mem_cons_of_mem _ (by simp))
    have hhead : as.reverse.headD a = p := by
      rw [hp, List.headD_eq_head?_getD, List.head?_reverse, List.getLastD_eq_getLast?]
    have hlast : bs.reverse.getLastD a = n := by
      rw [hn, List.headD_eq_head?_getD, List.getLastD_eq_getLast?, List.getLast?_reverse]
    rw [hhead, hlast, hn, Function.update_comm hne] at hinsert
    rw [List.reverse_append, List.reverse_cons, List.append_assoc, List.singleton_append, hn]
    exact hinsert
  nodup := by
    have hperm : (a :: (as ++ e :: bs)).Perm (e :: a :: (as ++ bs)) :=
      (List.perm_middle.cons a).trans (List.Perm.swap ..)
    exact hperm.nodup_iff.mpr (List.nodup_cons.mpr ⟨he, h.nodup⟩)

/-- The neighbours of `e` are linked with each other. -/
theorem delete (h : Ring next prev a (as ++ e :: bs)) :
    Ring (Function.update next (prev e) (next e)) (Function.update prev (next e) (prev e)) a
      (as ++ bs) where
  forward := by
    rw [h.prev_mem]
    exact h.forward.delete h.nodup
  backward := by
    have hback := h.backward
    rw [List.reverse_append, List.reverse_cons, List.append_assoc, List.singleton_append] at hback
    have hnodup : (a :: (bs.reverse ++ e :: as.reverse)).Nodup := by
      have hrev := nodup_reverse h.nodup
      rwa [List.reverse_cons, List.append_assoc, List.singleton_append] at hrev
    have hlast : bs.reverse.getLastD a = next e := by
      rw [h.next_mem, List.headD_eq_head?_getD, List.getLastD_eq_getLast?, List.getLast?_reverse]
    rw [List.reverse_append, ← hlast]
    exact hback.delete hnodup
  nodup := h.nodup.sublist (((List.sublist_cons_self e bs).append_left as).cons_cons a)

end Ring

end UoftOs.Lib.Rings
