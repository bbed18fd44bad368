import Mathlib.Data.List.Rotate

/-!
# Cyclic windows of a list

A list of fixed length is read as a circle of cells. `window` reads a run of
cells that may pass the end of the list, `store` replaces such a run, and
`overwrite` is the straight copy out of which `store` is built.
-/

namespace UoftOs.Lib.Cyclic

variable {α : Type*}

/-- The `k` cells from position `s` on, going around the end of the list. -/
def window (l : List α) (s k : Nat) : List α := (l.rotate s).take k

/-- A straight copy of `d` to the cells from position `s` on. -/
def overwrite (l : List α) (s : Nat) (d : List α) : List α :=
  l.take s ++ d ++ l.drop (s + d.length)

/-- How far cell `i` lies after cell `s` on a circle of `n` cells. -/
def offset (n s i : Nat) : Nat := (i + (n - s)) % n

/-- A cyclic copy of `d` to the cells from position `s` on. -/
def store (l : List α) (s : Nat) (d : List α) : List α :=
  l.mapIdx fun i a => (d[offset l.length s i]?).getD a

theorem offset_of_le {n s i : Nat} (hs : s < n) (hi : i < n) (h : s ≤ i) :
    offset n s i = i - s := by
  have he : i + (n - s) = (i - s) + n := by omega
  rw [offset, he, Nat.add_mod_right, Nat.mod_eq_of_lt (by omega)]

theorem offset_of_lt {n s i : Nat} (hs : s < n) (h : i < s) :
    offset n s i = i + (n - s) :=
  Nat.mod_eq_of_lt (by omega)

/-- Walking `j < n` cells from `s` and measuring back gives `j`. -/
theorem offset_add_mod {n s j : Nat} (hs : s < n) (hj : j < n) :
    offset n s ((j + s) % n) = j := by
  by_cases h : j + s < n
  · rw [Nat.mod_eq_of_lt h, offset_of_le hs h (by omega)]
    omega
  · have hm : (j + s) % n = j + s - n := by
      rw [Nat.mod_eq_sub_mod (by omega), Nat.mod_eq_of_lt (by omega)]
    rw [hm, offset_of_lt hs (by omega)]
    omega

@[simp] theorem length_overwrite {l : List α} {s : Nat} {d : List α}
    (h : s + d.length ≤ l.length) : (overwrite l s d).length = l.length := by
  simp [overwrite]
  omega

theorem getElem?_overwrite {l : List α} {s : Nat} {d : List α}
    (h : s + d.length ≤ l.length) (i : Nat) :
    (overwrite l s d)[i]? = if s ≤ i ∧ i < s + d.length then d[i - s]? else l[i]? := by
  have hs : (l.take s).length = s := by simp; omega
  by_cases h₁ : i < s
  · rw [overwrite, List.getElem?_append_left (by simp; omega),
      List.getElem?_append_left (by omega), List.getElem?_take_of_lt h₁, if_neg (by omega)]
  · by_cases h₂ : i < s + d.length
    · rw [overwrite, List.getElem?_append_left (by simp; omega),
        List.getElem?_append_right (by omega), hs, if_pos (by omega)]
    · have he : s + d.length + (i - (s + d.length)) = i := by omega
      have hl : (l.take s ++ d).length = s + d.length := by simp; omega
      rw [overwrite, List.getElem?_append_right (by omega), hl, List.getElem?_drop, he,
        if_neg (by omega)]

/-- A copy leaves the cells in front of it. -/
theorem overwrite_take {l : List α} {s k : Nat} {d : List α} (h : s + d.length ≤ l.length)
    (hk : k ≤ s) : (overwrite l s d).take k = l.take k := by
  rw [overwrite, List.append_assoc, List.take_append_of_le_length (by simp; omega),
    List.take_take, Nat.min_eq_left hk]

@[simp] theorem length_store (l : List α) (s : Nat) (d : List α) :
    (store l s d).length = l.length := by
  simp [store]

theorem getElem?_store (l : List α) (s : Nat) (d : List α) (i : Nat) :
    (store l s d)[i]? = l[i]?.map fun a => (d[offset l.length s i]?).getD a := by
  simp [store]

@[simp] theorem length_window {l : List α} {s k : Nat} (h : k ≤ l.length) :
    (window l s k).length = k := by
  simp [window, h]

theorem getElem?_window {l : List α} {s k i : Nat} (hk : k ≤ l.length) (hi : i < k) :
    (window l s k)[i]? = l[(i + s) % l.length]? := by
  rw [window, List.getElem?_take_of_lt hi, List.getElem?_rotate (by omega)]

/-- Windows of two lists agree when the cells they read do. -/
theorem window_congr {l l' : List α} {s k : Nat} (hl : l.length = l'.length)
    (hk : k ≤ l.length)
    (h : ∀ i < k, l[(i + s) % l.length]? = l'[(i + s) % l.length]?) :
    window l s k = window l' s k := by
  apply List.ext_getElem?
  intro i
  by_cases hi : i < k
  · rw [getElem?_window hk hi, getElem?_window (by omega) hi, ← hl, h i hi]
  · rw [List.getElem?_eq_none (by simp [hk]; omega),
      List.getElem?_eq_none (by simp [hl ▸ hk]; omega)]

@[simp] theorem window_zero (l : List α) (s : Nat) : window l s 0 = [] := by
  simp [window]

theorem window_mod (l : List α) (s k : Nat) :
    window l (s % l.length) k = window l s k := by
  simp [window, List.rotate_mod]

theorem take_window (l : List α) (s : Nat) {j k : Nat} (h : j ≤ k) :
    (window l s k).take j = window l s j := by
  simp [window, List.take_take, Nat.min_eq_left h]

/-- Dropping the first `j` cells of a window moves its start. -/
theorem drop_window (l : List α) (s : Nat) {j k : Nat} (hj : j ≤ k) (hk : k ≤ l.length) :
    (window l s k).drop j = window l (s + j) (k - j) := by
  apply List.ext_getElem?
  intro i
  by_cases hi : i < k - j
  · rw [List.getElem?_drop, getElem?_window hk (by omega),
      getElem?_window (by omega) hi]
    congr 2
    omega
  · rw [List.getElem?_eq_none (by simp [hk]; omega),
      List.getElem?_eq_none (by rw [length_window (by omega)]; omega)]

theorem window_append (l : List α) (s j k : Nat) (h : j + k ≤ l.length) :
    window l s (j + k) = window l s j ++ window l (s + j) k := by
  have ht := take_window l s (Nat.le_add_right j k)
  have hd := drop_window l s (Nat.le_add_right j k) h
  rw [Nat.add_sub_cancel_left] at hd
  rw [← ht, ← hd, List.take_append_drop]

/-- A window that does not pass the end is a plain slice. -/
theorem window_straight {l : List α} {s k : Nat} (h : s + k ≤ l.length) :
    window l s k = (l.drop s).take k := by
  rw [window, List.rotate_eq_drop_append_take (by omega), List.take_append_of_le_length]
  simp
  omega

/-- A window that passes the end is the tail of the list and then a prefix. -/
theorem window_split {l : List α} {s k : Nat} (hs : s ≤ l.length)
    (h : l.length ≤ s + k) (hk : k ≤ l.length) :
    window l s k = l.drop s ++ l.take (s + k - l.length) := by
  rw [window, List.rotate_eq_drop_append_take hs, List.take_append,
    List.take_of_length_le (by simp; omega), List.take_take, List.length_drop]
  congr 2
  omega

theorem overwrite_eq_store {l : List α} {s : Nat} {d : List α} (hs : s < l.length)
    (h : s + d.length ≤ l.length) : overwrite l s d = store l s d := by
  apply List.ext_getElem?
  intro i
  rw [getElem?_overwrite h, getElem?_store]
  by_cases hi : i < l.length
  · have hl : l[i]? = some l[i] := List.getElem?_eq_getElem hi
    by_cases hsi : s ≤ i
    · rw [offset_of_le hs hi hsi]
      by_cases hid : i < s + d.length
      · have hd : i - s < d.length := by omega
        simp [hsi, hid, hl, List.getElem?_eq_getElem hd]
      · have hd : d[i - s]? = none := List.getElem?_eq_none (by omega)
        simp [hid, hl, hd]
    · have hd : d[i + (l.length - s)]? = none := List.getElem?_eq_none (by omega)
      rw [offset_of_lt hs (by omega)]
      simp [hsi, hl, hd]
  · rw [List.getElem?_eq_none (by omega : l.length ≤ i)]
    simp
    omega

/-- A copy up to the end of the list followed by one from its start is cyclic. -/
theorem overwrite_overwrite_eq_store {l : List α} {s : Nat} {d : List α}
    (hs : s < l.length) (h : l.length ≤ s + d.length) (hd : d.length ≤ l.length) :
    overwrite (overwrite l s (d.take (l.length - s))) 0 (d.drop (l.length - s)) =
      store l s d := by
  have h₁ : s + (d.take (l.length - s)).length ≤ l.length := by simp; omega
  have h₂ : 0 + (d.drop (l.length - s)).length ≤
      (overwrite l s (d.take (l.length - s))).length := by
    rw [length_overwrite h₁]; simp; omega
  apply List.ext_getElem?
  intro i
  rw [getElem?_overwrite h₂, getElem?_overwrite h₁, getElem?_store]
  simp only [List.length_drop, List.length_take, List.getElem?_drop, List.getElem?_take]
  by_cases hi : i < l.length
  · have hl : l[i]? = some l[i] := List.getElem?_eq_getElem hi
    by_cases hsi : s ≤ i
    · have hid : i - s < d.length := by omega
      rw [offset_of_le hs hi hsi, if_neg (by omega), if_pos (by omega), if_pos (by omega)]
      simp [hl, List.getElem?_eq_getElem hid]
    · rw [offset_of_lt hs (by omega)]
      by_cases hid : i < d.length - (l.length - s)
      · have hid' : i + (l.length - s) < d.length := by omega
        have he : l.length - s + (i - 0) = i + (l.length - s) := by omega
        rw [if_pos (by omega), he]
        simp [hl, List.getElem?_eq_getElem hid']
      · rw [if_neg (by omega), if_neg (by omega)]
        have hn : d[i + (l.length - s)]? = none := List.getElem?_eq_none (by omega)
        simp [hl, hn]
  · rw [if_neg (by omega), if_neg (by omega), List.getElem?_eq_none (by omega : l.length ≤ i)]
    simp

/-- What was stored is what a window at the same place reads. -/
theorem window_store_self {l : List α} {s : Nat} {d : List α} (hs : s < l.length)
    (hd : d.length ≤ l.length) : window (store l s d) s d.length = d := by
  apply List.ext_getElem?
  intro i
  by_cases hi : i < d.length
  · rw [getElem?_window (by simpa using hd) hi, getElem?_store, length_store,
      offset_add_mod hs (by omega),
      List.getElem?_eq_getElem (Nat.mod_lt _ (by omega)), List.getElem?_eq_getElem hi]
    simp
  · rw [List.getElem?_eq_none (by rw [length_window (by simpa using hd)]; omega),
      List.getElem?_eq_none (by omega)]

/-- Storing before a window, with room on the circle, leaves the window. -/
theorem window_store_after {l : List α} {s k : Nat} {d : List α} (hs : s < l.length)
    (h : d.length + k ≤ l.length) :
    window (store l s d) (s + d.length) k = window l (s + d.length) k := by
  apply window_congr (length_store l s d) (by simp; omega)
  intro i hi
  rw [length_store, getElem?_store]
  have he : i + (s + d.length) = (i + d.length) + s := by omega
  rw [he, offset_add_mod hs (by omega), List.getElem?_eq_none (by omega : d.length ≤ i + d.length)]
  simp

/-- Storing right behind a window, with room on the circle, leaves the window. -/
theorem window_store_before {l : List α} {s k : Nat} {d : List α} (hs : s < l.length)
    (h : k + d.length ≤ l.length) :
    window (store l ((s + k) % l.length) d) s k = window l s k := by
  apply window_congr (length_store l _ d) (by simp; omega)
  intro i hi
  rw [length_store, getElem?_store]
  have hpos : 0 < l.length := by omega
  -- Seen from the store, cell `i` of the window lies `l.length - k + i` cells further on.
  have he : (i + s) % l.length =
      ((l.length - k + i) + (s + k) % l.length) % l.length := by
    rw [Nat.add_mod_mod]
    have : l.length - k + i + (s + k) = (i + s) + l.length := by omega
    rw [this, Nat.add_mod_right]
  rw [he, offset_add_mod (Nat.mod_lt _ hpos) (by omega),
    List.getElem?_eq_none (by omega : d.length ≤ l.length - k + i)]
  simp

end UoftOs.Lib.Cyclic
