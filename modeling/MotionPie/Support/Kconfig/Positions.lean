import MotionPie.Support.Kconfig.Join

/-!
# Positions in an expression

`expr_eliminate_dups1` and `expr_eliminate_dups2` hold two pointers into one expression and write
through both. A pointer is the path that leads to it, through nodes with two operands. Two
operands of a conjunction or a disjunction can be rewritten together: the rest of it has a value
of its own.
-/

namespace MotionPie.Support.Kconfig

/-- The way to a node: `false` goes to `left.expr`, `true` to `right.expr`. -/
abbrev Path := List Bool

/-- The nodes of one type from the root down, and where they end. -/
inductive Shape
  | leaf
  | node (left right : Shape)
  deriving DecidableEq

namespace Shape

/-- The part below a path. -/
def sub : Shape → Path → Option Shape
  | s, [] => some s
  | node l r, b :: p => (if b then r else l).sub p
  | leaf, _ :: _ => none
termination_by structural _ p => p

/-- The longest path. -/
def height : Shape → Nat
  | leaf => 0
  | node l r => max l.height r.height + 1

theorem sub_append (s : Shape) (p q : Path) : s.sub (p ++ q) = (s.sub p).bind (·.sub q) := by
  induction p generalizing s with
  | nil => rfl
  | cons b p ih =>
    cases s with
    | leaf => rfl
    | node l r => cases b <;> exact ih _

theorem sub_leaf_eq_some {p : Path} {s : Shape} (h : leaf.sub p = some s) : p = [] ∧ s = leaf := by
  cases p with
  | nil => exact ⟨rfl, (Option.some.inj h).symm⟩
  | cons b p => cases h

end Shape

namespace Expr

variable {env : Env} {j k : Junction} {e x y : Expr} {p q : Path} {s : Shape}

/-- The node that a path leads to. -/
def get? : Expr → Path → Option Expr
  | e, [] => some e
  | two _ l r, b :: p => (if b then r else l).get? p
  | _, _ :: _ => none
termination_by structural _ p => p

/-- The node that a path leads to is another one now. -/
def put : Expr → Path → Expr → Expr
  | _, [], x => x
  | two j l r, b :: p, x => if b then two j l (r.put p x) else two j (l.put p x) r
  | e, _ :: _, _ => e
termination_by structural _ p => p

@[simp] theorem get?_nil (e : Expr) : e.get? [] = some e := by cases e <;> rfl

@[simp] theorem put_nil (e x : Expr) : e.put [] x = x := by cases e <;> rfl

@[simp] theorem get?_left (j : Junction) (l r : Expr) (p : Path) :
    (two j l r).get? (false :: p) = l.get? p := rfl

@[simp] theorem get?_right (j : Junction) (l r : Expr) (p : Path) :
    (two j l r).get? (true :: p) = r.get? p := rfl

@[simp] theorem put_left (j : Junction) (l r : Expr) (p : Path) (x : Expr) :
    (two j l r).put (false :: p) x = two j (l.put p x) r := rfl

@[simp] theorem put_right (j : Junction) (l r : Expr) (p : Path) (x : Expr) :
    (two j l r).put (true :: p) x = two j l (r.put p x) := rfl

/-- A path that goes on goes on from a node with two operands. -/
theorem get?_cons_eq_some {b : Bool} :
    e.get? (b :: p) = some x ↔
      ∃ j l r, e = two j l r ∧ (if b then r else l).get? p = some x := by
  cases e with
  | two j l r => cases b <;> simp
  | symbol s => simp [get?]
  | not e => simp [get?]
  | comp c s t => simp [get?]

theorem get?_append (e : Expr) (p q : Path) : e.get? (p ++ q) = (e.get? p).bind (·.get? q) := by
  induction p generalizing e with
  | nil => simp
  | cons b p ih =>
    cases e with
    | two j l r => cases b <;> exact ih _
    | symbol s => rfl
    | not e => rfl
    | comp c s t => rfl

theorem get?_put (h : e.get? p = some y) : (e.put p x).get? p = some x := by
  induction p generalizing e with
  | nil => simp
  | cons b p ih =>
    obtain ⟨j, l, r, rfl, h⟩ := get?_cons_eq_some.mp h
    cases b <;> exact ih h

theorem put_get? (h : e.get? p = some x) : e.put p x = e := by
  induction p generalizing e with
  | nil => simpa using h.symm
  | cons b p ih =>
    obtain ⟨j, l, r, rfl, h⟩ := get?_cons_eq_some.mp h
    cases b
    · rw [put_left, ih (e := l) h]
    · rw [put_right, ih (e := r) h]

theorem put_put (e : Expr) (p : Path) (x y : Expr) : (e.put p x).put p y = e.put p y := by
  induction p generalizing e with
  | nil => simp
  | cons b p ih =>
    cases e with
    | two j l r => cases b <;> simp [ih]
    | symbol s => rfl
    | not e => rfl
    | comp c s t => rfl

/-- A node below another one, in both. -/
theorem put_append (h : e.get? p = some y) (q : Path) (x : Expr) :
    e.put (p ++ q) x = e.put p (y.put q x) := by
  induction p generalizing e with
  | nil =>
    rw [get?_nil, Option.some.injEq] at h
    simp [h]
  | cons b p ih =>
    obtain ⟨j, l, r, rfl, h⟩ := get?_cons_eq_some.mp h
    cases b
    · rw [List.cons_append, put_left, put_left, ih (e := l) h]
    · rw [List.cons_append, put_right, put_right, ih (e := r) h]

theorem size_put (h : e.get? p = some y) : (e.put p x).size + y.size = e.size + x.size := by
  induction p generalizing e with
  | nil =>
    rw [get?_nil, Option.some.injEq] at h
    rw [put_nil, h, Nat.add_comm]
  | cons b p ih =>
    obtain ⟨j, l, r, rfl, h⟩ := get?_cons_eq_some.mp h
    cases b
    · have := ih h
      simp only [put_left, size, Bool.false_eq_true, if_false] at this ⊢
      omega
    · have := ih h
      simp only [put_right, size, if_true] at this ⊢
      omega

theorem Hereditary.get? {P : Expr → Prop} (hP : Hereditary P) (he : P e)
    (h : e.get? p = some x) : P x := by
  induction p generalizing e with
  | nil =>
    rw [get?_nil, Option.some.injEq] at h
    exact h ▸ he
  | cons b p ih =>
    obtain ⟨j, l, r, rfl, h⟩ := get?_cons_eq_some.mp h
    obtain ⟨hl, hr⟩ := (hP.two j l r).mp he
    cases b
    · exact ih hl h
    · exact ih hr h

theorem Hereditary.put {P : Expr → Prop} (hP : Hereditary P) (he : P e) (hx : P x) (p : Path) :
    P (e.put p x) := by
  induction p generalizing e with
  | nil => simpa using hx
  | cons b p ih =>
    cases e with
    | two j l r =>
      obtain ⟨hl, hr⟩ := (hP.two j l r).mp he
      cases b
      · exact (hP.two j _ _).mpr ⟨ih hl, hr⟩
      · exact (hP.two j _ _).mpr ⟨hl, ih hr⟩
    | symbol s => exact he
    | not e => exact he
    | comp c s t => exact he

/-- A constant that is an operand is still to be taken out. -/
theorem not_settled_of_isYn (h : e.get? p = some x) (hp : p ≠ []) (hx : IsYn x) :
    ¬ e.Settled := by
  induction p generalizing e with
  | nil => exact absurd rfl hp
  | cons b p ih =>
    obtain ⟨j, l, r, rfl, h⟩ := get?_cons_eq_some.mp h
    rintro ⟨hl, hr, hl', hr'⟩
    by_cases hnil : p = []
    · subst hnil
      cases b
      · rw [get?_left, get?_nil, Option.some.injEq] at h
        exact hl (h ▸ hx)
      · rw [get?_right, get?_nil, Option.some.injEq] at h
        exact hr (h ▸ hx)
    · cases b
      · exact ih h hnil hl'
      · exact ih h hnil hr'

theorem not_settled_of_get? (h : e.get? p = some x) (hx : ¬ x.Settled) : ¬ e.Settled := by
  induction p generalizing e with
  | nil =>
    rw [get?_nil, Option.some.injEq] at h
    exact h ▸ hx
  | cons b p ih =>
    obtain ⟨j, l, r, rfl, h⟩ := get?_cons_eq_some.mp h
    rintro ⟨-, -, hl, hr⟩
    cases b
    · exact ih h hl
    · exact ih h hr

/-! ### The nodes of one type -/

/-- The nodes of the type from the root down. -/
def shape (j : Junction) : Expr → Shape
  | two k l r => if k = j then .node (l.shape j) (r.shape j) else .leaf
  | _ => .leaf

theorem shape_two (j : Junction) (l r : Expr) :
    (two j l r).shape j = .node (l.shape j) (r.shape j) := if_pos rfl

theorem shape_of_junction? (h : e.junction? ≠ some j) : e.shape j = .leaf := by
  cases e with
  | two k l r => exact if_neg fun hk ↦ h (congrArg some hk)
  | symbol s => rfl
  | not e => rfl
  | comp b s t => rfl

theorem shape_eq_node {l r : Shape} (h : e.shape j = .node l r) :
    ∃ a b, e = two j a b ∧ a.shape j = l ∧ b.shape j = r := by
  induction e using operand_induction j with
  | leaf e he => exact absurd (shape_of_junction? he ▸ h) (by simp)
  | node a b _ _ =>
    rw [shape_two, Shape.node.injEq] at h
    exact ⟨a, b, rfl, h⟩

theorem junction?_of_shape (h : e.shape j = .leaf) : e.junction? ≠ some j := by
  induction e using operand_induction j with
  | leaf e he => exact he
  | node a b _ _ => exact absurd (shape_two j a b ▸ h) (by simp)

theorem shape_two_dual (j : Junction) (l r : Expr) : (two j.dual l r).shape j = .leaf :=
  shape_of_junction? (by simpa [junction?] using j.dual_ne)

/-- A path through the nodes of the type leads to a node of the expression. -/
theorem exists_get?_of_sub (h : (e.shape j).sub p = some s) :
    ∃ x, e.get? p = some x ∧ x.shape j = s := by
  induction p generalizing e with
  | nil => exact ⟨e, by simp, Option.some.inj h⟩
  | cons b p ih =>
    cases hs : e.shape j with
    | leaf => rw [hs] at h; cases h
    | node l r =>
      obtain ⟨a, c, rfl, rfl, rfl⟩ := shape_eq_node hs
      rw [hs] at h
      cases b
      · exact ih h
      · exact ih h

/-- What is at the end of the nodes of the type is an operand. -/
theorem junction?_of_sub_leaf (h : (e.shape j).sub p = some .leaf) (hx : e.get? p = some x) :
    x.junction? ≠ some j := by
  obtain ⟨y, hy, hshape⟩ := exists_get?_of_sub h
  rw [hx, Option.some.injEq] at hy
  exact hy ▸ junction?_of_shape hshape

theorem shape_put (h : (e.shape j).sub p = some .leaf) (hx : x.junction? ≠ some j) :
    (e.put p x).shape j = e.shape j := by
  induction p generalizing e with
  | nil =>
    have he : e.shape j = .leaf := Option.some.inj h
    rw [put_nil, he, shape_of_junction? hx]
  | cons b p ih =>
    cases hs : e.shape j with
    | leaf => rw [hs] at h; cases h
    | node l r =>
      obtain ⟨a, c, rfl, rfl, rfl⟩ := shape_eq_node hs
      rw [hs] at h
      cases b
      · rw [put_left, shape_two, ih h]
      · rw [put_right, shape_two, ih h]

/-- What is written at one operand is not seen at another one. -/
theorem get?_put_of_ne (hp : (e.shape j).sub p = some .leaf) (hq : (e.shape j).sub q = some .leaf)
    (hne : p ≠ q) : (e.put p x).get? q = e.get? q := by
  induction p generalizing e q with
  | nil =>
    have he : e.shape j = .leaf := Option.some.inj hp
    rw [he] at hq
    exact absurd (Shape.sub_leaf_eq_some hq).1.symm hne
  | cons b p ih =>
    cases hs : e.shape j with
    | leaf => rw [hs] at hp; cases hp
    | node l r =>
      obtain ⟨a, c, rfl, rfl, rfl⟩ := shape_eq_node hs
      rw [hs] at hp hq
      cases q with
      | nil => cases hq
      | cons b' q =>
        cases b <;> cases b'
        · exact ih hp hq fun h ↦ hne (by rw [h])
        · rfl
        · rfl
        · exact ih hp hq fun h ↦ hne (by rw [h])

/-- The rest of the expression has a value of its own. -/
theorem exists_rest (env : Env) (h : (e.shape j).sub p = some s) :
    ∃ v, ∀ x, (e.put p x).calcValue env = j.op v (x.calcValue env) := by
  induction p generalizing e with
  | nil => exact ⟨j.unit, fun x ↦ by simp⟩
  | cons b p ih =>
    cases hs : e.shape j with
    | leaf => rw [hs] at h; cases h
    | node l r =>
      obtain ⟨a, c, rfl, rfl, rfl⟩ := shape_eq_node hs
      rw [hs] at h
      cases b
      · obtain ⟨v, hv⟩ := ih h
        refine ⟨j.op v (c.calcValue env), fun x ↦ ?_⟩
        rw [put_left, calcValue, hv]
        ac_rfl
      · obtain ⟨v, hv⟩ := ih h
        refine ⟨j.op (a.calcValue env) v, fun x ↦ ?_⟩
        rw [put_right, calcValue, hv]
        ac_rfl

/-- The rest of the expression without two operands has a value of its own. -/
theorem exists_rest_two (env : Env) (hp : (e.shape j).sub p = some .leaf)
    (hq : (e.shape j).sub q = some .leaf) (hne : p ≠ q) :
    ∃ v, ∀ x y, ((e.put p x).put q y).calcValue env =
      j.op v (j.op (x.calcValue env) (y.calcValue env)) := by
  induction p generalizing e q with
  | nil =>
    have he : e.shape j = .leaf := Option.some.inj hp
    rw [he] at hq
    exact absurd (Shape.sub_leaf_eq_some hq).1.symm hne
  | cons b p ih =>
    cases hs : e.shape j with
    | leaf => rw [hs] at hp; cases hp
    | node l r =>
      obtain ⟨a, c, rfl, rfl, rfl⟩ := shape_eq_node hs
      rw [hs] at hp hq
      cases q with
      | nil => cases hq
      | cons b' q =>
        have htail : b = b' → p ≠ q := fun hb h ↦ hne (by rw [hb, h])
        cases b <;> cases b'
        · obtain ⟨v, hv⟩ := ih hp hq (htail rfl)
          refine ⟨j.op v (c.calcValue env), fun x y ↦ ?_⟩
          rw [put_left, put_left, calcValue, hv]
          ac_rfl
        · obtain ⟨v, hv⟩ := exists_rest env hp
          obtain ⟨w, hw⟩ := exists_rest env hq
          refine ⟨j.op v w, fun x y ↦ ?_⟩
          rw [put_left, put_right, calcValue, hv, hw]
          ac_rfl
        · obtain ⟨v, hv⟩ := exists_rest env hp
          obtain ⟨w, hw⟩ := exists_rest env hq
          refine ⟨j.op w v, fun x y ↦ ?_⟩
          rw [put_right, put_left, calcValue, hv, hw]
          ac_rfl
        · obtain ⟨v, hv⟩ := ih hp hq (htail rfl)
          refine ⟨j.op (a.calcValue env) v, fun x y ↦ ?_⟩
          rw [put_right, put_right, calcValue, hv]
          ac_rfl

/-- A part of the expression adds nothing to it. -/
theorem op_calcValue_get? (env : Env) (h : (e.shape j).sub p = some s) (hx : e.get? p = some x) :
    j.op (e.calcValue env) (x.calcValue env) = e.calcValue env := by
  obtain ⟨v, hv⟩ := exists_rest env h
  have he := hv x
  rw [put_get? hx] at he
  rw [he, j.op_associative.assoc, Junction.op_self]

theorem height_shape_lt (j : Junction) (e : Expr) : (e.shape j).height < e.size := by
  induction e using operand_induction j with
  | leaf e he =>
    rw [shape_of_junction? he]
    exact size_pos e
  | node l r ihl ihr =>
    rw [shape_two]
    simp only [Shape.height, size]
    omega

/-- An operand and the longest path share no node. -/
theorem size_add_height_le (h : (e.shape j).sub p = some .leaf) (hx : e.get? p = some x) :
    x.size + (e.shape j).height ≤ e.size := by
  induction p generalizing e with
  | nil =>
    have he : e.shape j = .leaf := Option.some.inj h
    rw [get?_nil, Option.some.injEq] at hx
    rw [he, hx]
    exact Nat.le_refl _
  | cons b p ih =>
    cases hs : e.shape j with
    | leaf => rw [hs] at h; cases h
    | node l r =>
      obtain ⟨a, c, rfl, rfl, rfl⟩ := shape_eq_node hs
      rw [hs] at h
      have ha := height_shape_lt j a
      have hc := height_shape_lt j c
      simp only [Shape.height, size]
      cases b
      · have := ih h hx
        omega
      · have := ih h hx
        omega

end Expr

end MotionPie.Support.Kconfig
