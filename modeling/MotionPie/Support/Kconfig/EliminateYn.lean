import MotionPie.Support.Kconfig.Expr

/-!
# Taking the constants out

`expr_eliminate_yn` takes `y` and `n` out of the conjunctions and disjunctions. It goes down
through `E_AND` and `E_OR` only: below an `E_NOT` nothing changes.
-/

namespace MotionPie.Support.Kconfig.Expr

variable {env : Env} {e l r : Expr} {j : Junction}

/-- `expr_eliminate_yn`, `support/kconfig/expr.c` lines 231–312. -/
def eliminateYn : Expr → Expr
  | two .and l r =>
    if l.eliminateYn = symbol .no then symbol .no
    else if l.eliminateYn = symbol .yes then r.eliminateYn
    else if r.eliminateYn = symbol .no then symbol .no
    else if r.eliminateYn = symbol .yes then l.eliminateYn
    else two .and l.eliminateYn r.eliminateYn
  | two .or l r =>
    if l.eliminateYn = symbol .no then r.eliminateYn
    else if l.eliminateYn = symbol .yes then symbol .yes
    else if r.eliminateYn = symbol .no then l.eliminateYn
    else if r.eliminateYn = symbol .yes then symbol .yes
    else two .or l.eliminateYn r.eliminateYn
  | e => e

/-- The operand decides the node, or does not count in it. -/
def IsYn (e : Expr) : Prop := e = symbol .yes ∨ e = symbol .no

instance : DecidablePred IsYn := fun _ ↦ inferInstanceAs (Decidable (_ ∨ _))

theorem isYn_iff (j : Junction) : IsYn e ↔ e = symbol j.symbol ∨ e = symbol j.dual.symbol := by
  cases j
  · exact or_comm
  · exact Iff.rfl

/-- No operand of a conjunction or a disjunction is `y` or `n`, down to the first `E_NOT`. -/
def Settled : Expr → Prop
  | two _ l r => ¬ IsYn l ∧ ¬ IsYn r ∧ l.Settled ∧ r.Settled
  | _ => True

/-- The two branches in one. The four cases exclude each other, but for two constants. -/
theorem eliminateYn_two (j : Junction) (l r : Expr) :
    (two j l r).eliminateYn =
      if l.eliminateYn = symbol j.symbol then r.eliminateYn
      else if l.eliminateYn = symbol j.dual.symbol then symbol j.dual.symbol
      else if r.eliminateYn = symbol j.symbol then l.eliminateYn
      else if r.eliminateYn = symbol j.dual.symbol then symbol j.dual.symbol
      else two j l.eliminateYn r.eliminateYn := by
  have hny : Symbol.no ≠ Symbol.yes := by decide
  cases j
  · rfl
  · simp only [eliminateYn, Junction.symbol, Junction.dual]
    split_ifs <;> simp_all

theorem eliminateYn_of_not_two (h : ∀ j l r, e ≠ two j l r) : e.eliminateYn = e := by
  cases e with
  | two j l r => exact absurd rfl (h j l r)
  | symbol s => rfl
  | not e => rfl
  | comp b s t => rfl

/-- The value does not change, whatever the values of the symbols. -/
@[simp] theorem calcValue_eliminateYn (env : Env) (e : Expr) :
    e.eliminateYn.calcValue env = e.calcValue env := by
  induction e with
  | symbol s => rfl
  | not e ih => rfl
  | comp b s t => rfl
  | two j l r ihl ihr =>
    rw [eliminateYn_two, calcValue, ← ihl, ← ihr]
    split_ifs with hl hl' hr hr' <;> simp [*, calcValue]

/-- The result has no constant left in a conjunction or a disjunction. -/
theorem settled_eliminateYn (e : Expr) : e.eliminateYn.Settled := by
  induction e with
  | symbol s => trivial
  | not e ih => trivial
  | comp b s t => trivial
  | two j l r ihl ihr =>
    rw [eliminateYn_two]
    split_ifs with hl hl' hr hr'
    · exact ihr
    · trivial
    · exact ihl
    · trivial
    · refine ⟨?_, ?_, ihl, ihr⟩ <;> rw [isYn_iff j] <;> simp [*]

/-- Where there is nothing to take out, nothing changes. -/
theorem eliminateYn_of_settled (h : e.Settled) : e.eliminateYn = e := by
  induction e with
  | symbol s => rfl
  | not e ih => rfl
  | comp b s t => rfl
  | two j l r ihl ihr =>
    obtain ⟨hl, hr, hl', hr'⟩ := h
    rw [isYn_iff j, not_or] at hl hr
    rw [eliminateYn_two, ihl hl', ihr hr', if_neg hl.1, if_neg hl.2, if_neg hr.1, if_neg hr.2]

theorem size_eliminateYn_le (e : Expr) : e.eliminateYn.size ≤ e.size := by
  induction e with
  | symbol s => exact Nat.le_refl _
  | not e ih => exact Nat.le_refl _
  | comp b s t => exact Nat.le_refl _
  | two j l r ihl ihr =>
    rw [eliminateYn_two]
    split_ifs <;> simp only [size] <;> omega

/-- Where there is something to take out, the expression gets smaller. -/
theorem size_eliminateYn_lt (h : ¬ e.Settled) : e.eliminateYn.size < e.size := by
  induction e with
  | symbol s => exact absurd trivial h
  | not e ih => exact absurd trivial h
  | comp b s t => exact absurd trivial h
  | two j l r ihl ihr =>
    have hl := size_eliminateYn_le l
    have hr := size_eliminateYn_le r
    rw [eliminateYn_two]
    split_ifs with h₁ h₂ h₃ h₄
    · simp only [size]
      omega
    · simp only [size]
      have := size_pos l
      omega
    · simp only [size]
      omega
    · simp only [size]
      have := size_pos l
      omega
    · -- what is left has no constant among its own operands, so one of these got smaller
      by_cases hsl : l.Settled
      · by_cases hsr : r.Settled
        · rw [eliminateYn_of_settled hsl] at h₁ h₂
          rw [eliminateYn_of_settled hsr] at h₃ h₄
          refine absurd ⟨?_, ?_, hsl, hsr⟩ h <;> rw [isYn_iff j] <;> simp [*]
        · have := ihr hsr
          simp only [size]
          omega
      · have := ihl hsl
        simp only [size]
        omega

/-- What `expr_eliminate_yn` returns has the value of the expression in every configuration and
no constant left to take out; exactly the expressions that have one get smaller, and all others
stay what they are. -/
theorem eliminateYn_spec (e : Expr) :
    (∀ env, e.eliminateYn.calcValue env = e.calcValue env) ∧ e.eliminateYn.Settled ∧
      (e.eliminateYn = e ↔ e.Settled) ∧ (e.eliminateYn.size < e.size ↔ ¬ e.Settled) := by
  refine ⟨fun env ↦ calcValue_eliminateYn env e, settled_eliminateYn e,
    ⟨fun h ↦ h ▸ settled_eliminateYn e, eliminateYn_of_settled⟩, fun h hset ↦ ?_,
    size_eliminateYn_lt⟩
  rw [eliminateYn_of_settled hset] at h
  exact Nat.lt_irrefl _ h

end MotionPie.Support.Kconfig.Expr
