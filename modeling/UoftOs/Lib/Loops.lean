import Mathlib.Data.List.Basic

/-!
# Loops with a test

A loop runs over a list of items and ends before the first round whose state fails
its test. Nested loops are one loop over the inner items, whatever the outer loops
test, as long as their tests do not end them before the innermost one. A loop that
pushes what it reads into a bounded array reads a prefix of its items.
-/

namespace UoftOs.Lib.Loops

variable {α β σ ε : Type*}

/-- The loop over `items` that ends before the first round whose state fails the test. -/
def loopWhile (test : σ → Bool) (body : α → σ → Except ε σ) : List α → σ → Except ε σ
  | [], s => .ok s
  | a :: items, s => if test s then body a s >>= loopWhile test body items else .ok s

variable {test outer : σ → Bool} {body : α → σ → Except ε σ} {s : σ}

theorem loopWhile_of_not (items : List α) (h : ¬ test s) : loopWhile test body items s = .ok s := by
  cases items with
  | nil => rfl
  | cons a items => rw [loopWhile, if_neg h]

theorem loopWhile_append (as bs : List α) :
    loopWhile test body (as ++ bs) s = loopWhile test body as s >>= loopWhile test body bs := by
  induction as generalizing s with
  | nil => rfl
  | cons a as ih =>
      rw [List.cons_append, loopWhile, loopWhile]
      by_cases h : test s
      · rw [if_pos h, if_pos h]
        cases body a s with
        | error e => rfl
        | ok s' => exact ih
      · rw [if_neg h, if_neg h]
        exact (loopWhile_of_not bs h).symm

/-- An outer loop over groups of items whose test is no stricter than the inner one. -/
theorem loopWhile_nested {γ : Type*} (f : γ → List α) (weaker : ∀ s, test s → outer s)
    (groups : List γ) :
    loopWhile outer (fun g => loopWhile test body (f g)) groups s =
      loopWhile test body (groups.flatMap f) s := by
  induction groups generalizing s with
  | nil => rfl
  | cons g groups ih =>
      rw [loopWhile, List.flatMap_cons, loopWhile_append]
      by_cases h : outer s
      · rw [if_pos h]
        exact congrArg _ (funext fun s' => ih)
      · have hinner : ¬ test s := fun htest => h (weaker s htest)
        rw [if_neg h, loopWhile_of_not _ hinner]
        exact (loopWhile_of_not _ hinner).symm

/-! ## Filling an array -/

/-- Store the next element of an array of `capacity` elements. -/
def push (full : ε) (capacity : Nat) (read : α → Except ε β) (a : α) (array : List β) :
    Except ε (List β) :=
  if capacity ≤ array.length then .error full
  else (read a).map fun b => array ++ [b]

variable {full : ε} {capacity n : Nat} {read : α → Except ε β} {array result : List β}

theorem mapM_cons_eq_ok {a : α} {as : List α} :
    (a :: as).mapM read = .ok result ↔
      ∃ b bs, read a = .ok b ∧ as.mapM read = .ok bs ∧ result = b :: bs := by
  rw [List.mapM_cons]
  cases read a with
  | error e => simp [bind, Except.bind]
  | ok b =>
      cases as.mapM read with
      | error e => simp [bind, Except.bind]
      | ok bs => simp [bind, Except.bind, pure, Except.pure, eq_comm]

/-- A loop that has ended reads nothing more. -/
theorem eq_ok_iff_mapM_nil (hfits : array.length ≤ capacity) :
    (.ok array : Except ε (List β)) = .ok result ↔
      ∃ bs, ([] : List α).mapM read = .ok bs ∧ result = array ++ bs ∧
        result.length ≤ capacity := by
  constructor
  · intro h
    cases h
    exact ⟨[], rfl, (List.append_nil _).symm, hfits⟩
  · rintro ⟨bs, hbs, rfl, -⟩
    cases hbs
    exact congrArg _ (List.append_nil _).symm

/-- The loop that fills an array up to `n` elements reads a prefix of the items. -/
theorem loopWhile_push_eq_ok (hfits : array.length ≤ capacity) (items : List α) :
    loopWhile (fun array => decide (array.length < n)) (push full capacity read) items array =
        .ok result ↔
      ∃ bs, (items.take (n - array.length)).mapM read = .ok bs ∧ result = array ++ bs ∧
        result.length ≤ capacity := by
  induction items generalizing array with
  | nil =>
      rw [loopWhile, List.take_nil]
      exact eq_ok_iff_mapM_nil hfits
  | cons a items ih =>
      rw [loopWhile]
      by_cases hlt : array.length < n
      · have htake : n - array.length = n - (array.length + 1) + 1 := by omega
        rw [if_pos (decide_eq_true hlt), htake, List.take_succ_cons, push]
        by_cases hfull : capacity ≤ array.length
        · rw [if_pos hfull]
          constructor
          · intro h
            cases h
          · rintro ⟨bs, hbs, rfl, hle⟩
            obtain ⟨b, bs, _, _, rfl⟩ := mapM_cons_eq_ok.mp hbs
            rw [List.length_append, List.length_cons] at hle
            omega
        · rw [if_neg hfull]
          cases hread : read a with
          | error e =>
              constructor
              · intro h
                cases h
              · rintro ⟨bs, hbs, -⟩
                obtain ⟨b, bs, hb, -⟩ := mapM_cons_eq_ok.mp hbs
                rw [hread] at hb
                cases hb
          | ok b =>
              have hlen : (array ++ [b]).length = array.length + 1 := by simp
              have hnext := ih (show (array ++ [b]).length ≤ capacity by omega)
              rw [hlen] at hnext
              refine hnext.trans ⟨?_, ?_⟩
              · rintro ⟨bs, hbs, rfl, hle⟩
                exact ⟨b :: bs, mapM_cons_eq_ok.mpr ⟨b, bs, hread, hbs, rfl⟩, by simp, hle⟩
              · rintro ⟨bs, hbs, rfl, hle⟩
                obtain ⟨b', bs, hb, hbs', rfl⟩ := mapM_cons_eq_ok.mp hbs
                rw [hread] at hb
                cases hb
                exact ⟨bs, hbs', by simp, hle⟩
      · have htake : n - array.length = 0 := by omega
        rw [if_neg (by simpa using hlt), htake, List.take_zero]
        exact eq_ok_iff_mapM_nil hfits

end UoftOs.Lib.Loops
