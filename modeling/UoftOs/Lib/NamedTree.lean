import Mathlib.Data.List.Induction

/-!
# Trees with named edges

A tree is given by its edges: `edge i n k` says that `k` is the child of `i` under
the name `n`. A node is reached from the root by one path. Adding or removing an edge
keeps this.
-/

namespace UoftOs.Lib.NamedTree

variable {ι N : Type*} {edge edge' : ι → N → ι → Prop} {root i j k p : ι} {n : N} {ns ms : List N}

/-- The path `ns` leads from `i` to `j`. -/
def Walk (edge : ι → N → ι → Prop) : ι → List N → ι → Prop
  | i, [], j => i = j
  | i, n :: ns, j => ∃ k, edge i n k ∧ Walk edge k ns j

/-- A name leads to one child, a child has one parent and one name, and the root is no
child. -/
structure IsTree (edge : ι → N → ι → Prop) (root : ι) : Prop where
  functional : ∀ i n j k, edge i n j → edge i n k → j = k
  unique : ∀ i j n m k, edge i n k → edge j m k → i = j ∧ n = m
  root_free : ∀ i n, ¬ edge i n root

/-- The edges and one more. -/
def link (edge : ι → N → ι → Prop) (p : ι) (n : N) (k : ι) : ι → N → ι → Prop :=
  fun i m j => edge i m j ∨ (i = p ∧ m = n ∧ j = k)

/-- The edges without those of `p` under the name `n`. -/
def unlink (edge : ι → N → ι → Prop) (p : ι) (n : N) : ι → N → ι → Prop :=
  fun i m j => edge i m j ∧ ¬ (i = p ∧ m = n)

/-! ## Walks -/

theorem walk_append : Walk edge i (ns ++ ms) j ↔ ∃ k, Walk edge i ns k ∧ Walk edge k ms j := by
  induction ns generalizing i with
  | nil => simp [Walk]
  | cons m ns ih =>
      rw [List.cons_append, Walk]
      constructor
      · rintro ⟨l, hl, hwalk⟩
        obtain ⟨k, hk, hj⟩ := ih.mp hwalk
        exact ⟨k, ⟨l, hl, hk⟩, hj⟩
      · rintro ⟨k, ⟨l, hl, hk⟩, hj⟩
        exact ⟨l, hl, ih.mpr ⟨k, hk, hj⟩⟩

theorem walk_concat : Walk edge i (ns ++ [n]) j ↔ ∃ k, Walk edge i ns k ∧ edge k n j := by
  simp [walk_append, Walk]

theorem Walk.mono (h : Walk edge i ns j) (hsub : ∀ i n k, edge i n k → edge' i n k) :
    Walk edge' i ns j := by
  induction ns generalizing i with
  | nil => exact h
  | cons n ns ih =>
      obtain ⟨k, hk, hrest⟩ := h
      exact ⟨k, hsub i n k hk, ih hrest⟩

theorem Walk.link (h : Walk edge i ns p) : Walk (link edge p n k) i (ns ++ [n]) k :=
  walk_concat.mpr ⟨p, h.mono fun _ _ _ => Or.inl, .inr ⟨rfl, rfl, rfl⟩⟩

/-- A new leaf adds one path to each path to its parent. -/
theorem walk_link_iff (hleaf : ∀ m j, ¬ edge k m j) (hne : k ≠ p) :
    Walk (NamedTree.link edge p n k) i ns j ↔
      Walk edge i ns j ∨ (j = k ∧ ∃ ms, ns = ms ++ [n] ∧ Walk edge i ms p) := by
  constructor
  · intro h
    induction ns using List.reverseRecOn generalizing j with
    | nil => exact .inl h
    | append_singleton ns m ih =>
        obtain ⟨l, hl, hedge⟩ := walk_concat.mp h
        have hold : Walk edge i ns l := by
          refine (ih hl).resolve_right ?_
          rintro ⟨rfl, _⟩
          rcases hedge with hmj | ⟨heq, _⟩
          · exact hleaf m j hmj
          · exact hne heq
        rcases hedge with hmj | ⟨rfl, rfl, rfl⟩
        · exact .inl (walk_concat.mpr ⟨l, hold, hmj⟩)
        · exact .inr ⟨rfl, ns, rfl, hold⟩
  · rintro (h | ⟨rfl, ms, rfl, h⟩)
    · exact h.mono fun _ _ _ => Or.inl
    · exact h.link

namespace IsTree

variable (h : IsTree edge root)
include h

theorem mono (hsub : ∀ i n k, edge' i n k → edge i n k) : IsTree edge' root where
  functional := fun i n j k hj hk => h.functional i n j k (hsub _ _ _ hj) (hsub _ _ _ hk)
  unique := fun i j n m k hi hj => h.unique i j n m k (hsub _ _ _ hi) (hsub _ _ _ hj)
  root_free := fun i n hroot => h.root_free i n (hsub _ _ _ hroot)

/-- A node is reached from the root by one path. -/
theorem walk_unique (hns : Walk edge root ns k) (hms : Walk edge root ms k) : ns = ms := by
  induction ns using List.reverseRecOn generalizing ms k with
  | nil =>
      obtain rfl : root = k := hns
      rcases List.eq_nil_or_concat ms with rfl | ⟨ms, m, rfl⟩
      · rfl
      · obtain ⟨l, _, hl⟩ := walk_concat.mp (List.concat_eq_append ▸ hms)
        exact absurd hl (h.root_free l m)
  | append_singleton ns n ih =>
      obtain ⟨l, hl, hk⟩ := walk_concat.mp hns
      rcases List.eq_nil_or_concat ms with rfl | ⟨ms, m, rfl⟩
      · obtain rfl : root = k := hms
        exact absurd hk (h.root_free l n)
      · obtain ⟨l', hl', hk'⟩ := walk_concat.mp (List.concat_eq_append ▸ hms)
        obtain ⟨rfl, rfl⟩ := h.unique _ _ _ _ _ hk hk'
        rw [ih hl hl', List.concat_eq_append]

/-- A path leads to one node. -/
theorem walk_functional (hj : Walk edge i ns j) (hk : Walk edge i ns k) : j = k := by
  induction ns generalizing i with
  | nil => exact Eq.trans (Eq.symm hj) hk
  | cons n ns ih =>
      obtain ⟨l, hl, hj⟩ := hj
      obtain ⟨m, hm, hk⟩ := hk
      obtain rfl := h.functional _ _ _ _ hl hm
      exact ih hj hk

/-! ## One more edge -/

/-- A new child without edges to it. -/
theorem link (hk : ∀ i n, ¬ edge i n k) (hroot : k ≠ root) (hn : ∀ j, ¬ edge p n j) :
    IsTree (link edge p n k) root where
  functional := by
    rintro i m j l (hj | ⟨rfl, rfl, rfl⟩) (hl | ⟨hi, hm, rfl⟩)
    · exact h.functional _ _ _ _ hj hl
    · exact absurd (hi ▸ hm ▸ hj) (hn j)
    · exact absurd hl (hn l)
    · rfl
  unique := by
    rintro i j m m' l (hi | ⟨rfl, rfl, rfl⟩) (hj | ⟨rfl, rfl, hl⟩)
    · exact h.unique _ _ _ _ _ hi hj
    · exact absurd (hl ▸ hi) (hk i m)
    · exact absurd hj (hk j m')
    · exact ⟨rfl, rfl⟩
  root_free := by
    rintro i m (hi | ⟨_, _, hl⟩)
    · exact h.root_free i m hi
    · exact hroot hl.symm

/-! ## One edge less -/

theorem unlink : IsTree (unlink edge p n) root := h.mono fun _ _ _ hedge => hedge.1

/-- Without the edge to a leaf, the paths to the other nodes are left. -/
theorem walk_unlink_iff (hk : edge p n k) (hleaf : ∀ m j, ¬ edge k m j) :
    Walk (NamedTree.unlink edge p n) root ns j ↔ Walk edge root ns j ∧ j ≠ k := by
  constructor
  · intro hwalk
    refine ⟨hwalk.mono fun _ _ _ hedge => hedge.1, ?_⟩
    rintro rfl
    rcases List.eq_nil_or_concat ns with rfl | ⟨ms, m, rfl⟩
    · obtain rfl : root = j := hwalk
      exact h.root_free p n hk
    · obtain ⟨l, _, hedge, hother⟩ := walk_concat.mp (List.concat_eq_append ▸ hwalk)
      exact hother (h.unique _ _ _ _ _ hedge hk)
  · rintro ⟨hwalk, hne⟩
    induction ns using List.reverseRecOn generalizing j with
    | nil => exact hwalk
    | append_singleton ns m ih =>
        obtain ⟨l, hl, hedge⟩ := walk_concat.mp hwalk
        have hlk : l ≠ k := by
          rintro rfl
          exact hleaf m j hedge
        refine walk_concat.mpr ⟨l, ih hl hlk, hedge, ?_⟩
        rintro ⟨rfl, rfl⟩
        exact hne (h.functional _ _ _ _ hedge hk)

end IsTree

end UoftOs.Lib.NamedTree
