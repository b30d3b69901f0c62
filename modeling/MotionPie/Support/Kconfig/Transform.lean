import MotionPie.Support.Kconfig.Expr

/-!
# The normal form of a dependency

`expr_transform` pushes the negations down to the symbols and turns the comparisons of a boolean
symbol with a constant into the symbol or its negation. After De Morgan it transforms the new
node as a whole, so that the operands, which have their normal form already, are gone through
again.
-/

namespace MotionPie.Support.Kconfig.Expr

variable {env : Env} {e n r : Expr} {fuel : Nat}

/-- The branches `E_EQUAL` and `E_UNEQUAL`, `support/kconfig/expr.c` lines 653–698. -/
def transformComp (equal : Bool) (s t : Symbol) : Expr :=
  if s.type ≠ .boolean then comp equal s t
  else if t = .no then
    if equal then not (symbol s) else symbol s
  else if t = .mod then
    -- a boolean symbol tested for 'm': the test is forced
    if equal then symbol .no else symbol .yes
  else if t = .yes then
    if equal then symbol s else not (symbol s)
  else comp equal s t

/-- The branch `E_NOT`, `support/kconfig/expr.c` lines 699–767, by the operand. `again` is the
function itself. -/
def transformNot (again : Expr → Option Expr) : Expr → Option Expr
  | not a => again a
  | comp equal s t => some (comp (!equal) s t)
  | two j a b => again (two j.dual (not a) (not b))
  | symbol s =>
    some <|
      if s = .yes then symbol .no
      else if s = .mod then symbol .mod
      else if s = .no then symbol .yes
      else not (symbol s)

/-- `expr_transform`, `support/kconfig/expr.c` lines 636–771, for as many calls inside each other
as there is fuel. -/
def transformFuel : Nat → Expr → Option Expr
  | 0, _ => none
  | _ + 1, symbol s => some (symbol s)
  | _ + 1, comp equal s t => some (transformComp equal s t)
  | fuel + 1, not e => transformFuel fuel e >>= transformNot (transformFuel fuel)
  | fuel + 1, two j l r => do
    let l ← transformFuel fuel l
    let r ← transformFuel fuel r
    return two j l r

/-- Nothing is left that `expr_transform` changes: a negation is one of a symbol that is not
`y`, `m` or `n`, and no boolean symbol is compared with one of these. -/
def Normal : Expr → Prop
  | symbol _ => True
  | not (symbol s) => s ≠ .yes ∧ s ≠ .mod ∧ s ≠ .no
  | not _ => False
  | comp _ s t => s.type = .boolean → t ≠ .yes ∧ t ≠ .mod ∧ t ≠ .no
  | two _ l r => l.Normal ∧ r.Normal

/-- How deep conjunctions and disjunctions are nested. -/
def depth : Expr → Nat
  | symbol _ => 0
  | not e => e.depth
  | comp _ _ _ => 0
  | two _ l r => max l.depth r.depth + 1

theorem depth_le_size (e : Expr) : e.depth ≤ e.size := by
  induction e with
  | symbol s => exact Nat.zero_le _
  | not e ih => exact Nat.le_succ_of_le ih
  | comp b s t => exact Nat.zero_le _
  | two j l r ihl ihr =>
    simp only [depth, size]
    omega

theorem transformComp_of_normal {b : Bool} {s t : Symbol} (h : (comp b s t).Normal) :
    transformComp b s t = comp b s t := by
  unfold transformComp
  by_cases hs : s.type = .boolean
  · obtain ⟨hy, hm, hn⟩ := h hs
    simp [hs, hy, hm, hn]
  · simp [hs]

theorem normal_transformComp (b : Bool) (s t : Symbol) : (transformComp b s t).Normal := by
  have hsym (h : s.type = .boolean) : (not (symbol s)).Normal := by
    refine ⟨?_, ?_, ?_⟩ <;> rintro rfl <;> exact absurd h (by decide)
  unfold transformComp
  split_ifs with hs hn
  all_goals first
    | trivial
    | exact hsym (by simpa using hs)
    | exact fun h ↦ absurd h hs
    | exact fun _ ↦ ⟨‹_›, ‹_›, ‹_›⟩

theorem depth_transformComp (b : Bool) (s t : Symbol) : (transformComp b s t).depth = 0 := by
  unfold transformComp
  split_ifs <;> rfl

@[simp] theorem calcValue_transformComp (env : Env) (b : Bool) (s t : Symbol) :
    (transformComp b s t).calcValue env = (comp b s t).calcValue env := by
  by_cases hs : s.type = .boolean
  · have hmod := env.tri_boolean s hs
    have hno := calcValue_comp_no env b (.inl hs)
    have hm := calcValue_comp_mod env b (.inl hs)
    have hyes := calcValue_comp_yes env b (.inl hs)
    simp only [transformComp, hs, ne_eq, not_true_eq_false, if_false]
    -- the symbol has the value `y` or `n`
    rcases htri : env.tri s with _ | _ | _
    · split_ifs <;> simp_all [calcValue] <;> rfl
    · exact absurd htri hmod
    · split_ifs <;> simp_all [calcValue] <;> rfl
  · simp [transformComp, hs]

/-! ### Enough fuel gives the normal form -/

/-- A normal form is its own one. -/
theorem transformFuel_of_normal (h : n.Normal) (hfuel : n.depth + 2 ≤ fuel) :
    transformFuel fuel n = some n := by
  induction n generalizing fuel with
  | symbol s =>
    obtain ⟨f, rfl⟩ := Nat.exists_eq_add_of_le' (Nat.le_of_lt hfuel)
    rfl
  | comp b s t =>
    obtain ⟨f, rfl⟩ := Nat.exists_eq_add_of_le' (Nat.le_of_lt hfuel)
    exact congrArg some (transformComp_of_normal h)
  | not e ih =>
    obtain ⟨f, rfl⟩ := Nat.exists_eq_add_of_le' (Nat.le_trans (Nat.le_add_left 2 _) hfuel)
    cases e with
    | symbol s =>
      obtain ⟨hy, hm, hn⟩ := h
      simp [transformFuel, transformNot, hy, hm, hn]
    | not e => exact h.elim
    | comp b s t => exact h.elim
    | two j l r => exact h.elim
  | two j l r ihl ihr =>
    simp only [depth] at hfuel
    obtain ⟨f, rfl⟩ := Nat.exists_eq_add_of_le' (Nat.le_trans (Nat.le_add_left 1 _) hfuel)
    have hl := ihl h.1 (show l.depth + 2 ≤ f by omega)
    have hr := ihr h.2 (show r.depth + 2 ≤ f by omega)
    simp [transformFuel, hl, hr]

/-- `r` is a normal form with the value `v`, and no deeper than `e`. -/
structure IsNormalForm (e : Expr) (v : Env → Tristate) (r : Expr) : Prop where
  normal : r.Normal
  depth_le : r.depth ≤ e.depth
  calcValue : ∀ env, r.calcValue env = v env

/-- The negation of a normal form has one. -/
theorem exists_transformNot (h : n.Normal) (hfuel : 2 * n.depth + 2 ≤ fuel) :
    ∃ r, transformNot (transformFuel fuel) n = some r ∧
      IsNormalForm n (fun env ↦ (n.calcValue env).not) r := by
  induction n generalizing fuel with
  | symbol s =>
    refine ⟨_, rfl, ?_, ?_, fun env ↦ ?_⟩
    · split_ifs with hy hm hn
      · trivial
      · trivial
      · trivial
      · exact ⟨hy, hm, hn⟩
    · split_ifs <;> exact Nat.le_refl _
    · split_ifs with hy hm hn <;> subst_vars <;> simp [Expr.calcValue] <;> rfl
  | comp b s t =>
    refine ⟨_, rfl, h, Nat.le_refl _, fun env ↦ ?_⟩
    cases b <;> simp [Expr.calcValue]
  | not e ih =>
    cases e with
    | symbol s =>
      obtain ⟨f, rfl⟩ := Nat.exists_eq_add_of_le' (Nat.le_of_lt hfuel)
      exact ⟨symbol s, rfl, trivial, Nat.le_refl _, fun env ↦ by simp [Expr.calcValue]⟩
    | not e => exact h.elim
    | comp b s t => exact h.elim
    | two j l r => exact h.elim
  | two j l r ihl ihr =>
    simp only [depth] at hfuel
    obtain ⟨f, rfl⟩ := Nat.exists_eq_add_of_le' (Nat.le_trans (Nat.le_add_left 2 _) hfuel)
    obtain ⟨l', hl', hl⟩ := ihl h.1 (show 2 * l.depth + 2 ≤ f by omega)
    obtain ⟨r', hr', hr⟩ := ihr h.2 (show 2 * r.depth + 2 ≤ f by omega)
    have hfl := transformFuel_of_normal h.1 (show l.depth + 2 ≤ f by omega)
    have hfr := transformFuel_of_normal h.2 (show r.depth + 2 ≤ f by omega)
    refine ⟨two j.dual l' r', ?_, ⟨hl.normal, hr.normal⟩, ?_, fun env ↦ ?_⟩
    · change transformFuel (f + 2) (two j.dual (not l) (not r)) = _
      simp only [transformFuel, hfl, hfr, Option.bind_eq_bind, Option.bind_some, hl', hr']
      rfl
    · have := hl.depth_le
      have := hr.depth_le
      simp only [depth]
      omega
    · simp only [Expr.calcValue]
      rw [hl.calcValue, hr.calcValue, Junction.not_op]

/-- Two calls for each node are enough. -/
theorem exists_transformFuel (e : Expr) (hfuel : 2 * e.size + 1 ≤ fuel) :
    ∃ r, transformFuel fuel e = some r ∧ IsNormalForm e (fun env ↦ e.calcValue env) r := by
  obtain ⟨f, rfl⟩ := Nat.exists_eq_add_of_le' (Nat.le_trans (Nat.le_add_left 1 _) hfuel)
  induction e generalizing f with
  | symbol s => exact ⟨_, rfl, trivial, Nat.le_refl _, fun _ ↦ rfl⟩
  | comp b s t =>
    exact ⟨_, rfl, normal_transformComp b s t, Nat.le_of_eq (depth_transformComp b s t),
      fun env ↦ calcValue_transformComp env b s t⟩
  | not e ih =>
    simp only [size] at hfuel
    obtain ⟨f, rfl⟩ := Nat.exists_eq_add_of_le' (m := 1) (n := f) (by omega)
    obtain ⟨n, hn, hn'⟩ := ih f (by omega)
    have hdepth := hn'.depth_le
    have hsize := depth_le_size e
    obtain ⟨r, hr, hr'⟩ :=
      exists_transformNot hn'.normal (show 2 * n.depth + 2 ≤ f + 1 by omega)
    refine ⟨r, ?_, hr'.normal, Nat.le_trans hr'.depth_le hdepth, fun env ↦ ?_⟩
    · rw [transformFuel, hn]
      exact hr
    · rw [hr'.calcValue, hn'.calcValue]
      rfl
  | two j l r ihl ihr =>
    simp only [size] at hfuel
    obtain ⟨f, rfl⟩ := Nat.exists_eq_add_of_le' (m := 1) (n := f) (by omega)
    obtain ⟨l', hl', hl⟩ := ihl f (by omega)
    obtain ⟨r', hr', hr⟩ := ihr f (by omega)
    refine ⟨two j l' r', ?_, ⟨hl.normal, hr.normal⟩, ?_, fun env ↦ ?_⟩
    · rw [transformFuel, hl', hr']
      rfl
    · have := hl.depth_le
      have := hr.depth_le
      simp only [depth]
      omega
    · simp only [Expr.calcValue]
      rw [hl.calcValue, hr.calcValue]

/-- What was found with some fuel is found with more. -/
theorem transformFuel_succ (h : transformFuel fuel e = some r) :
    transformFuel (fuel + 1) e = some r := by
  induction fuel generalizing e r with
  | zero => cases h
  | succ fuel ih =>
    cases e with
    | symbol s => exact h
    | comp b s t => exact h
    | not e =>
      rw [transformFuel, Option.bind_eq_bind, Option.bind_eq_some_iff] at h ⊢
      obtain ⟨n, hn, hr⟩ := h
      refine ⟨n, ih hn, ?_⟩
      cases n with
      | symbol s => exact hr
      | comp b s t => exact hr
      | not a => exact ih hr
      | two j a b => exact ih hr
    | two j l r =>
      simp only [transformFuel, Option.bind_eq_bind, Option.bind_eq_some_iff] at h ⊢
      obtain ⟨l', hl, r', hr, h⟩ := h
      exact ⟨l', ih hl, r', ih hr, h⟩

theorem transformFuel_mono {m : Nat} (hfuel : fuel ≤ m) (h : transformFuel fuel e = some r) :
    transformFuel m e = some r := by
  induction hfuel with
  | refl => exact h
  | step _ ih => exact transformFuel_succ ih

/-- `expr_transform`. -/
def transform (e : Expr) : Expr := (transformFuel (2 * e.size + 1) e).getD e

/-- `expr_transform` returns, for every expression. -/
theorem transformFuel_eq_transform (hfuel : 2 * e.size + 1 ≤ fuel) :
    transformFuel fuel e = some e.transform := by
  obtain ⟨r, hr, -⟩ := exists_transformFuel e (Nat.le_refl _)
  rw [transformFuel_mono hfuel hr, transform, hr]
  rfl

theorem isNormalForm_transform (e : Expr) :
    IsNormalForm e (fun env ↦ e.calcValue env) e.transform := by
  obtain ⟨r, hr, h⟩ := exists_transformFuel e (Nat.le_refl _)
  rwa [transform, hr]

/-- What `expr_transform` returns is the normal form with the value of the expression in every
configuration, and exactly the normal forms stay what they are. -/
theorem transform_spec (e : Expr) :
    (∀ fuel, 2 * e.size + 1 ≤ fuel → transformFuel fuel e = some e.transform) ∧
      e.transform.Normal ∧ (∀ env, e.transform.calcValue env = e.calcValue env) ∧
      (e.transform = e ↔ e.Normal) := by
  have h := isNormalForm_transform e
  refine ⟨fun fuel hfuel ↦ transformFuel_eq_transform hfuel, h.normal, h.calcValue,
    fun he ↦ he ▸ h.normal, fun he ↦ ?_⟩
  have hfuel : e.depth + 2 ≤ 2 * e.size + 1 := by
    have := depth_le_size e
    have := size_pos e
    omega
  rw [transform, transformFuel_of_normal he hfuel]
  rfl

end MotionPie.Support.Kconfig.Expr
