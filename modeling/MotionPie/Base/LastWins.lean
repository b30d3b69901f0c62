import Mathlib.Data.List.DropRight

/-!
# Values of which the last one counts

A file that is edited line by line can hold several values of one key. Its reader takes the
last one. A writer recognises some of the values only: it overwrites all that it recognises,
and appends its own value when it recognises none. As long as no recognised value is followed
by another one, what was written last is what is read. Values are arbitrary.
-/

namespace MotionPie.Base

universe u

variable {α : Type u} (fits : α → Bool)

/-- The values after a write. -/
def overwrite (a : α) (vs : List α) : List α :=
  (vs.map fun v ↦ if fits v then a else v) ++ if vs.any fits then [] else [a]

/-- No value but the last one is recognised. -/
def Tidy (vs : List α) : Prop := ∀ v ∈ vs.dropLast, fits v = false

/-- The values that follow the first recognised one. -/
def behind (vs : List α) : List α := (vs.dropWhile fun v ↦ !fits v).tail

variable {fits} {a : α} {vs : List α}

/-- A value is tidy when what precedes it is not recognised. -/
theorem tidy_concat : Tidy fits (vs ++ [a]) ↔ ∀ v ∈ vs, fits v = false := by
  rw [Tidy, List.dropLast_concat]

/-- Values that are not recognised are left alone. -/
theorem map_overwrite_of_none (h : ∀ v ∈ vs, fits v = false) :
    (vs.map fun v ↦ if fits v then a else v) = vs := by
  have hid : ∀ v ∈ vs, (if fits v then a else v) = id v := by
    intro v hv
    simp [h v hv]
  rw [List.map_congr_left hid, List.map_id]

/-- Nothing recognised: the value is appended. -/
theorem overwrite_of_none (h : ∀ v ∈ vs, fits v = false) : overwrite fits a vs = vs ++ [a] := by
  have hany : vs.any fits = false := by simpa using h
  rw [overwrite, map_overwrite_of_none h, hany]
  rfl

/-- One value recognised: it is replaced, and what follows it stays behind it. -/
theorem overwrite_of_one {us ws : List α} {v : α} (hus : ∀ u ∈ us, fits u = false)
    (hv : fits v = true) (hws : ∀ w ∈ ws, fits w = false) :
    overwrite fits a (us ++ v :: ws) = us ++ a :: ws := by
  have hany : (us ++ v :: ws).any fits = true := by simp [hv]
  rw [overwrite, hany, List.map_append, List.map_cons, map_overwrite_of_none hus,
    map_overwrite_of_none hws]
  simp [hv]

/-- At most one value recognised: none, or one with nothing recognised around it. -/
theorem countP_le_one_cases (h : vs.countP fits ≤ 1) :
    (∀ v ∈ vs, fits v = false) ∨ ∃ us v ws, vs = us ++ v :: ws ∧ (∀ u ∈ us, fits u = false) ∧
      fits v = true ∧ ∀ w ∈ ws, fits w = false := by
  induction vs with
  | nil => exact .inl (by simp)
  | cons v vs ih =>
    cases hv : fits v with
    | false =>
      rw [List.countP_cons_of_neg (by simp [hv])] at h
      rcases ih h with hnone | ⟨us, u, ws, rfl, hus, hu, hws⟩
      · exact .inl (List.forall_mem_cons.mpr ⟨hv, hnone⟩)
      · exact .inr ⟨v :: us, u, ws, rfl, List.forall_mem_cons.mpr ⟨hv, hus⟩, hu, hws⟩
    | true =>
      rw [List.countP_cons_of_pos hv] at h
      have hzero : vs.countP fits = 0 := by omega
      have hnone : ∀ w ∈ vs, fits w = false := by simpa using hzero
      exact .inr ⟨[], v, vs, rfl, by simp, hv, hnone⟩

/-- Nothing is behind when nothing is recognised. -/
theorem behind_of_none (h : ∀ v ∈ vs, fits v = false) : behind fits vs = [] := by
  have hdrop : vs.dropWhile (fun v ↦ !fits v) = [] := by simpa using h
  rw [behind, hdrop]
  rfl

/-- What is behind the recognised value. -/
theorem behind_append {us ws : List α} {v : α} (hus : ∀ u ∈ us, fits u = false)
    (hv : fits v = true) : behind fits (us ++ v :: ws) = ws := by
  rw [behind, List.dropWhile_append_of_pos (by simpa using hus),
    List.dropWhile_cons_of_neg (by simp [hv])]
  rfl

/-- What is read after a write: the value written, unless another value is behind it. -/
theorem getLast?_overwrite (h : vs.countP fits ≤ 1) :
    (overwrite fits a vs).getLast? = some ((behind fits vs).getLast?.getD a) := by
  rcases countP_le_one_cases h with hnone | ⟨us, v, ws, rfl, hus, hv, hws⟩
  · rw [overwrite_of_none hnone, behind_of_none hnone, List.getLast?_concat]
    rfl
  · rw [overwrite_of_one hus hv hws, behind_append hus hv, List.getLast?_append_cons,
      List.getLast?_cons]

/-- In tidy values at most the last one is recognised. -/
theorem Tidy.countP_le_one (h : Tidy fits vs) : vs.countP fits ≤ 1 := by
  cases vs using List.reverseRecOn with
  | nil => simp
  | append_singleton us v =>
    have hzero : us.countP fits = 0 := by simpa using tidy_concat.mp h
    rw [List.countP_append, hzero, Nat.zero_add]
    exact List.countP_le_length

/-- Nothing is behind in tidy values. -/
theorem Tidy.behind_eq_nil (h : Tidy fits vs) : behind fits vs = [] := by
  cases vs using List.reverseRecOn with
  | nil => rfl
  | append_singleton us v =>
    have hus := tidy_concat.mp h
    cases hv : fits v with
    | false => exact behind_of_none (by simpa [or_imp, forall_and, hv] using hus)
    | true => exact behind_append hus hv

/-- Tidy values read what was written last. -/
theorem Tidy.getLast?_overwrite (h : Tidy fits vs) : (overwrite fits a vs).getLast? = some a := by
  rw [Base.getLast?_overwrite h.countP_le_one, h.behind_eq_nil]
  rfl

/-- A write keeps values tidy. -/
theorem Tidy.overwrite (h : Tidy fits vs) : Tidy fits (overwrite fits a vs) := by
  cases vs using List.reverseRecOn with
  | nil => exact tidy_concat.mpr (by simp)
  | append_singleton us v =>
    have hus := tidy_concat.mp h
    cases hv : fits v with
    | false =>
      have hnone : ∀ u ∈ us ++ [v], fits u = false := by simpa [or_imp, forall_and, hv] using hus
      rw [overwrite_of_none hnone]
      exact tidy_concat.mpr hnone
    | true =>
      rw [overwrite_of_one hus hv (by simp)]
      exact tidy_concat.mpr hus

end MotionPie.Base
