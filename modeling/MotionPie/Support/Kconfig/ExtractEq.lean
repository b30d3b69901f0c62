import MotionPie.Support.Kconfig.EliminateEq
import MotionPie.Support.Kconfig.Transform

/-!
# Taking out of two expressions what both have

`expr_extract_eq` hands out what it takes out of the two. `expr_eliminate_dups2` asks with it
whether one operand contradicts another one: whether every operand of its negation is there.
-/

namespace MotionPie.Support.Kconfig.Expr

variable {env : Env} {j : Junction} {e1 e2 : Expr}

/-- The last branch of `expr_extract_eq`, `support/kconfig/expr.c` lines 862–872. -/
def extractLeaf (j : Junction) (ep : Option Expr) (e1 e2 : Expr) : Option Expr × Expr × Expr :=
  if exprEq e1 e2 then
    (some (ep.elim e1 fun e ↦ two j e e1), symbol j.symbol, symbol j.symbol)
  else (ep, e1, e2)

/-- `expr_extract_eq`, `support/kconfig/expr.c` lines 848–875, as it is called, without anything
taken out before. -/
def extractEq (j : Junction) (e1 e2 : Expr) : Option Expr × Expr × Expr :=
  pairAll j (extractLeaf j) e1 none e2

/-- `expr_extract_eq_and` and `expr_extract_eq_or`, `support/kconfig/expr.c` lines 826–846. -/
def extractEqYn (j : Junction) (e1 e2 : Expr) : Option Expr × Expr × Expr :=
  let x := extractEq j e1 e2
  if x.1.isSome then (x.1, x.2.1.eliminateYn, x.2.2.eliminateYn) else x

/-- `expr_extract_eq_and`. -/
def extractEqAnd : Expr → Expr → Option Expr × Expr × Expr := extractEqYn .and

/-- `expr_extract_eq_or`. -/
def extractEqOr : Expr → Expr → Option Expr × Expr × Expr := extractEqYn .or

/-- The value of what was taken out. -/
def extracted (env : Env) (j : Junction) (ep : Option Expr) : Tristate :=
  ep.elim j.unit (calcValue env)

/-- Each of the two expressions is what was taken out, together with what is left of it. -/
theorem extractEqYn_spec (env : Env) (j : Junction) (e1 e2 : Expr) :
    e1.calcValue env =
        j.op (extracted env j (extractEqYn j e1 e2).1) ((extractEqYn j e1 e2).2.1.calcValue env) ∧
      e2.calcValue env =
        j.op (extracted env j (extractEqYn j e1 e2).1)
          ((extractEqYn j e1 e2).2.2.calcValue env) := by
  -- what a step takes out is added to what was taken out before
  have hleaf (a : Option Expr) (e1 e2 : Expr) :
      ∃ c, TakenOut env j (fun a c b ↦ extracted env j b = j.op (extracted env j a) c) a e1 e2
        (extractLeaf j a e1 e2) c := by
    unfold extractLeaf
    split_ifs with heq
    · refine ⟨e1.calcValue env, ?_, by simp [calcValue], ?_⟩
      · cases a <;> simp [extracted, calcValue]
      · simp [calcValue, exprEq_sound env heq]
    · exact ⟨j.unit, by simp, by simp, by simp⟩
  obtain ⟨c, h⟩ := exists_takenOut_pairAll (a := none)
    (fun a b b' c d hc hd ↦ by rw [hd, hc]; ac_rfl) hleaf e1 e2
  have hc : extracted env j (extractEq j e1 e2).1 = c := by
    rw [extractEq, h.kept]
    simp [extracted]
  simp only [extractEqYn]
  split_ifs
  · simp only [calcValue_eliminateYn, hc]
    exact ⟨h.left, h.right⟩
  · rw [hc]
    exact ⟨h.left, h.right⟩

/-- The operands of the negation of `e1`, whose type is `k`, are all there in `e2`,
`support/kconfig/expr.c` lines 578–581 and 593–596. -/
def refutes (k : Junction) (e1 e2 : Expr) : Bool :=
  (extractEqYn k.dual (not e1).transform e2).2.1 = symbol k.dual.symbol

/-- Then `e2` is the negation of `e1` and something else. -/
theorem exists_of_refutes (env : Env) {k : Junction} (h : refutes k e1 e2 = true) :
    ∃ w, e2.calcValue env = k.dual.op (e1.calcValue env).not w := by
  obtain ⟨h1, h2⟩ := extractEqYn_spec env k.dual (not e1).transform e2
  rw [refutes, decide_eq_true_eq] at h
  rw [h, (isNormalForm_transform _).calcValue, calcValue, calcValue, env.tri_symbol,
    Junction.op_unit] at h1
  exact ⟨_, h1 ▸ h2⟩

end MotionPie.Support.Kconfig.Expr
