import MotionPie.Support.Kconfig.EliminateYn

/-!
# Taking out what two dependencies have in common

`__expr_eliminate_eq` and `expr_extract_eq` compare every operand of one expression with every
operand of another one, through nodes of one type, and change both where they are equal. What is
equal is said by `expr_eq`, which takes copies and eliminates in them what they have in common:
the two functions call each other.
-/

namespace MotionPie.Support.Kconfig.Expr

variable {α : Type} {env : Env} {j : Junction} {e e1 e2 : Expr}

/-! ### Every operand with every operand -/

/-- `e1` is no node of the type, and meets the operands of `e2` one after the other. What `f`
leaves of it meets the next one; it is a constant then, or `e1` still. -/
def pairLeaf (j : Junction) (f : α → Expr → Expr → α × Expr × Expr) :
    Expr → α → Expr → α × Expr × Expr
  | two k l r, a, e1 =>
    if k = j then
      let x := pairLeaf j f l a e1
      let y := pairLeaf j f r x.1 x.2.1
      (y.1, y.2.1, two k x.2.2 y.2.2)
    else f a e1 (two k l r)
  | e2, a, e1 => f a e1 e2

/-- The operands of `e1`, one after the other, meet those of `e2`. -/
def pairAll (j : Junction) (f : α → Expr → Expr → α × Expr × Expr) :
    Expr → α → Expr → α × Expr × Expr
  | two k l r, a, e2 =>
    if k = j then
      let x := pairAll j f l a e2
      let y := pairAll j f r x.1 x.2.2
      (y.1, two k x.2.1 y.2.1, y.2.2)
    else pairLeaf j f e2 a (two k l r)
  | e1, a, e2 => pairLeaf j f e2 a e1

section Equations

variable {f : α → Expr → Expr → α × Expr × Expr} {a : α}

theorem pairLeaf_of_junction? (h : e2.junction? ≠ some j) : pairLeaf j f e2 a e1 = f a e1 e2 := by
  cases e2 with
  | two k l r => exact if_neg fun hk ↦ h (congrArg some hk)
  | symbol s => rfl
  | not e => rfl
  | comp b s t => rfl

theorem pairLeaf_node (l r : Expr) :
    pairLeaf j f (two j l r) a e1 =
      ((pairLeaf j f r (pairLeaf j f l a e1).1 (pairLeaf j f l a e1).2.1).1,
        (pairLeaf j f r (pairLeaf j f l a e1).1 (pairLeaf j f l a e1).2.1).2.1,
        two j (pairLeaf j f l a e1).2.2
          (pairLeaf j f r (pairLeaf j f l a e1).1 (pairLeaf j f l a e1).2.1).2.2) := if_pos rfl

theorem pairAll_of_junction? (h : e1.junction? ≠ some j) :
    pairAll j f e1 a e2 = pairLeaf j f e2 a e1 := by
  cases e1 with
  | two k l r => exact if_neg fun hk ↦ h (congrArg some hk)
  | symbol s => rfl
  | not e => rfl
  | comp b s t => rfl

theorem pairAll_node (l r : Expr) :
    pairAll j f (two j l r) a e2 =
      ((pairAll j f r (pairAll j f l a e2).1 (pairAll j f l a e2).2.2).1,
        two j (pairAll j f l a e2).2.1
          (pairAll j f r (pairAll j f l a e2).1 (pairAll j f l a e2).2.2).2.1,
        (pairAll j f r (pairAll j f l a e2).1 (pairAll j f l a e2).2.2).2.2) := if_pos rfl

end Equations

/-- The last branch of `__expr_eliminate_eq`, `support/kconfig/expr.c` lines 142–161. -/
def eliminateLeaf (eq : Expr → Expr → Bool) (j : Junction) (_ : Unit) (e1 e2 : Expr) :
    Unit × Expr × Expr :=
  if e1 = e2 ∧ IsYn e1 then ((), e1, e2)
  else if eq e1 e2 then ((), symbol j.symbol, symbol j.symbol)
  else ((), e1, e2)

/-- `__expr_eliminate_eq`, `support/kconfig/expr.c` lines 130–162. -/
def eliminateEqType (eq : Expr → Expr → Bool) (j : Junction) (e1 e2 : Expr) : Expr × Expr :=
  (pairAll j (eliminateLeaf eq j) e1 () e2).2

/-- The call for the type of one of the two, when that is `E_OR` or `E_AND`. -/
def eliminateEqOf (eq : Expr → Expr → Bool) (type : Option Junction) (e : Expr × Expr) :
    Expr × Expr :=
  match type with
  | some j => eliminateEqType eq j e.1 e.2
  | none => e

/-- `expr_eliminate_eq`, `support/kconfig/expr.c` lines 164–184. -/
def eliminateEqWith (eq : Expr → Expr → Bool) (e1 e2 : Expr) : Expr × Expr :=
  let x := eliminateEqOf eq e1.junction? (e1, e2)
  let y := if x.1.kind ≠ x.2.kind then eliminateEqOf eq x.2.junction? x else x
  (y.1.eliminateYn, y.2.eliminateYn)

/-- Both are symbols, and the same one. -/
def sameSymbol : Expr → Expr → Bool
  | symbol s, symbol t => s = t
  | _, _ => false

/-- `expr_eq`, `support/kconfig/expr.c` lines 189–229, for as many calls inside each other as
there is fuel. -/
def exprEqFuel : Nat → Expr → Expr → Bool
  | 0, _, _ => false
  | _ + 1, comp b s t, comp b' s' t' => b = b' && s = s' && t = t'
  | _ + 1, symbol s, symbol t => s = t
  | fuel + 1, not e1, not e2 => exprEqFuel fuel e1 e2
  | fuel + 1, two j l r, two j' l' r' =>
    let x := eliminateEqWith (exprEqFuel fuel) (two j l r) (two j' l' r')
    j = j' && sameSymbol x.1 x.2
  | _ + 1, _, _ => false

/-! ### What is taken out is the same on both sides -/

/-- What a step takes out of two expressions has one value, `c`; `R` says what becomes of it. -/
structure TakenOut (env : Env) (j : Junction) (R : α → Tristate → α → Prop) (a : α) (e1 e2 : Expr)
    (x : α × Expr × Expr) (c : Tristate) : Prop where
  kept : R a c x.1
  left : e1.calcValue env = j.op c (x.2.1.calcValue env)
  right : e2.calcValue env = j.op c (x.2.2.calcValue env)

section Pairs

variable {R : α → Tristate → α → Prop} {f : α → Expr → Expr → α × Expr × Expr}

/-- What `f` takes out of two operands is taken out of the two expressions. -/
theorem exists_takenOut_pairLeaf
    (htrans : ∀ a b b' c d, R a c b → R b d b' → R a (j.op c d) b')
    (hf : ∀ a e1 e2, ∃ c, TakenOut env j R a e1 e2 (f a e1 e2) c) (a : α) (e1 e2 : Expr) :
    ∃ c, TakenOut env j R a e1 e2 (pairLeaf j f e2 a e1) c := by
  induction e2 using operand_induction j generalizing a e1 with
  | leaf e2 h2 =>
    rw [pairLeaf_of_junction? h2]
    exact hf a e1 e2
  | node l r ihl ihr =>
    obtain ⟨c, hc⟩ := ihl a e1
    obtain ⟨d, hd⟩ := ihr (pairLeaf j f l a e1).1 (pairLeaf j f l a e1).2.1
    rw [pairLeaf_node]
    refine ⟨j.op c d, htrans _ _ _ _ _ hc.kept hd.kept, ?_, ?_⟩
    · rw [hc.left, hd.left]
      ac_rfl
    · simp only [calcValue]
      rw [hc.right, hd.right]
      ac_rfl

theorem exists_takenOut_pairAll
    (htrans : ∀ a b b' c d, R a c b → R b d b' → R a (j.op c d) b')
    (hf : ∀ a e1 e2, ∃ c, TakenOut env j R a e1 e2 (f a e1 e2) c) (a : α) (e1 e2 : Expr) :
    ∃ c, TakenOut env j R a e1 e2 (pairAll j f e1 a e2) c := by
  induction e1 using operand_induction j generalizing a e2 with
  | leaf e1 h1 =>
    rw [pairAll_of_junction? h1]
    exact exists_takenOut_pairLeaf htrans hf a e1 e2
  | node l r ihl ihr =>
    obtain ⟨c, hc⟩ := ihl a e2
    obtain ⟨d, hd⟩ := ihr (pairAll j f l a e2).1 (pairAll j f l a e2).2.2
    rw [pairAll_node]
    refine ⟨j.op c d, htrans _ _ _ _ _ hc.kept hd.kept, ?_, ?_⟩
    · simp only [calcValue]
      rw [hc.left, hd.left]
      ac_rfl
    · rw [hc.right, hd.right]
      ac_rfl

end Pairs

/-- `eq` finds expressions equal only when they have the same value. -/
def SoundEq (env : Env) (eq : Expr → Expr → Bool) : Prop :=
  ∀ e1 e2, eq e1 e2 = true → e1.calcValue env = e2.calcValue env

/-- `__expr_eliminate_eq` takes one value out of both. -/
theorem exists_eliminateEqType {eq : Expr → Expr → Bool} (heq : SoundEq env eq) (j : Junction)
    (e1 e2 : Expr) :
    ∃ c, e1.calcValue env = j.op c ((eliminateEqType eq j e1 e2).1.calcValue env) ∧
      e2.calcValue env = j.op c ((eliminateEqType eq j e1 e2).2.calcValue env) := by
  have hleaf : ∀ a e1 e2,
      ∃ c, TakenOut env j (fun _ _ _ ↦ True) a e1 e2 (eliminateLeaf eq j a e1 e2) c := by
    intro a e1 e2
    unfold eliminateLeaf
    split_ifs with hconst hsame
    · exact ⟨j.unit, trivial, by simp, by simp⟩
    · exact ⟨e1.calcValue env, trivial, by simp [calcValue], by simp [calcValue, heq _ _ hsame]⟩
    · exact ⟨j.unit, trivial, by simp, by simp⟩
  obtain ⟨c, h⟩ := exists_takenOut_pairAll (R := fun _ _ _ ↦ True)
    (fun _ _ _ _ _ _ _ ↦ trivial) hleaf () e1 e2
  exact ⟨c, h.left, h.right⟩

/-- The values are in the order in which the values of what is left are. -/
structure Reflects (v1 v2 w1 w2 : Tristate) : Prop where
  le : w1 ≤ w2 → v1 ≤ v2
  ge : w2 ≤ w1 → v2 ≤ v1

theorem Reflects.refl (v1 v2 : Tristate) : Reflects v1 v2 v1 v2 := ⟨id, id⟩

theorem Reflects.trans {u1 u2 v1 v2 w1 w2 : Tristate} (h : Reflects u1 u2 v1 v2)
    (h' : Reflects v1 v2 w1 w2) : Reflects u1 u2 w1 w2 :=
  ⟨h.le ∘ h'.le, h.ge ∘ h'.ge⟩

theorem Reflects.eq {v1 v2 w : Tristate} (h : Reflects v1 v2 w w) : v1 = v2 :=
  Tristate.le_antisymm (h.le (Tristate.le_refl w)) (h.ge (Tristate.le_refl w))

theorem Reflects.op (j : Junction) (c w1 w2 : Tristate) :
    Reflects (j.op c w1) (j.op c w2) w1 w2 :=
  ⟨j.op_le_op c, j.op_le_op c⟩

theorem reflects_eliminateEqOf {eq : Expr → Expr → Bool} (heq : SoundEq env eq)
    (type : Option Junction) (x : Expr × Expr) :
    Reflects (x.1.calcValue env) (x.2.calcValue env)
      ((eliminateEqOf eq type x).1.calcValue env) ((eliminateEqOf eq type x).2.calcValue env) := by
  cases type with
  | none => exact Reflects.refl _ _
  | some j =>
    obtain ⟨c, h1, h2⟩ := exists_eliminateEqType heq j x.1 x.2
    rw [h1, h2]
    exact Reflects.op j c _ _

/-- The order of what `expr_eliminate_eq` leaves is the order of what it was given. -/
theorem reflects_eliminateEqWith {eq : Expr → Expr → Bool} (heq : SoundEq env eq)
    (e1 e2 : Expr) :
    Reflects (e1.calcValue env) (e2.calcValue env)
      ((eliminateEqWith eq e1 e2).1.calcValue env)
      ((eliminateEqWith eq e1 e2).2.calcValue env) := by
  have h := reflects_eliminateEqOf heq e1.junction? (e1, e2)
  simp only [eliminateEqWith, calcValue_eliminateYn]
  split_ifs
  · exact h.trans (reflects_eliminateEqOf heq _ _)
  · exact h

theorem eq_of_sameSymbol (h : sameSymbol e1 e2 = true) : e1 = e2 := by
  cases e1 <;> cases e2 <;> simp_all [sameSymbol]

/-- Expressions that `expr_eq` finds equal have the same value in every configuration. -/
theorem soundEq_exprEqFuel (env : Env) (fuel : Nat) : SoundEq env (exprEqFuel fuel) := by
  induction fuel with
  | zero => exact fun _ _ h ↦ Bool.noConfusion h
  | succ fuel ih =>
    intro e1 e2 h
    cases e1 with
    | symbol s => cases e2 <;> simp_all [exprEqFuel]
    | comp b s t => cases e2 <;> simp_all [exprEqFuel]
    | not a =>
      cases e2 with
      | not b =>
        simp only [exprEqFuel] at h
        rw [calcValue, calcValue, ih a b h]
      | symbol s => simp [exprEqFuel] at h
      | comp b s t => simp [exprEqFuel] at h
      | two j l r => simp [exprEqFuel] at h
    | two j l r =>
      cases e2 with
      | two j' l' r' =>
        simp only [exprEqFuel, Bool.and_eq_true] at h
        have hr := reflects_eliminateEqWith ih (two j l r) (two j' l' r')
        rw [eq_of_sameSymbol h.2] at hr
        exact hr.eq
      | symbol s => simp [exprEqFuel] at h
      | comp b s t => simp [exprEqFuel] at h
      | not a => simp [exprEqFuel] at h

/-! ### Enough fuel -/

/-- How deep the nodes are nested. -/
def height : Expr → Nat
  | symbol _ => 0
  | not e => e.height + 1
  | comp _ _ _ => 0
  | two _ l r => max l.height r.height + 1

section Below

variable {eq eq' : Expr → Expr → Bool} {h : Nat}

/-- `eq` and `eq'` agree on what is nested less deep than `h`. -/
def AgreeBelow (h : Nat) (eq eq' : Expr → Expr → Bool) : Prop :=
  ∀ e1 e2 : Expr, e1.height < h → eq e1 e2 = eq' e1 e2

theorem height_eliminateLeaf (h1 : e1.height < h) :
    (eliminateLeaf eq j () e1 e2).2.1.height < h := by
  unfold eliminateLeaf
  split_ifs
  · exact h1
  · exact Nat.lt_of_le_of_lt (Nat.zero_le _) h1
  · exact h1

theorem pairLeaf_congr (hagree : AgreeBelow h eq eq') (h1 : e1.height < h) :
    pairLeaf j (eliminateLeaf eq j) e2 () e1 = pairLeaf j (eliminateLeaf eq' j) e2 () e1 ∧
      (pairLeaf j (eliminateLeaf eq j) e2 () e1).2.1.height < h := by
  induction e2 using operand_induction j generalizing e1 with
  | leaf e2 h2 =>
    rw [pairLeaf_of_junction? h2, pairLeaf_of_junction? h2]
    refine ⟨?_, height_eliminateLeaf h1⟩
    unfold eliminateLeaf
    rw [hagree e1 e2 h1]
  | node l r ihl ihr =>
    obtain ⟨hl, hl'⟩ := ihl h1
    obtain ⟨hr, hr'⟩ := ihr hl'
    rw [pairLeaf_node, pairLeaf_node, ← hl, ← hr]
    exact ⟨rfl, hr'⟩

theorem pairAll_congr (hagree : AgreeBelow h eq eq') (h1 : e1.height < h) :
    pairAll j (eliminateLeaf eq j) e1 () e2 = pairAll j (eliminateLeaf eq' j) e1 () e2 := by
  induction e1 using operand_induction j generalizing e2 with
  | leaf e1 h1' =>
    rw [pairAll_of_junction? h1', pairAll_of_junction? h1']
    exact (pairLeaf_congr hagree h1).1
  | node l r ihl ihr =>
    simp only [height] at h1
    rw [pairAll_node, pairAll_node, ihl (by omega), ihr (by omega)]

/-- What `e1` is compared with keeps its type when that is the one that is gone through. -/
theorem pairLeaf_two (l r : Expr) :
    ∃ l' r', (pairLeaf j (eliminateLeaf eq j) (two j l r) () e1).2.2 = two j l' r' := by
  simp [pairLeaf]

theorem pairAll_two (e1 l r : Expr) :
    ∃ l' r', (pairAll j (eliminateLeaf eq j) e1 () (two j l r)).2.2 = two j l' r' := by
  induction e1 using operand_induction j generalizing l r with
  | leaf e1 h1 =>
    rw [pairAll_of_junction? h1]
    exact pairLeaf_two l r
  | node l1 r1 ihl ihr =>
    obtain ⟨l', r', hl⟩ := ihl l r
    rw [pairAll_node, hl]
    exact ihr l' r'

/-- On two nodes of one type the operands are gone through once. -/
theorem eliminateEqWith_two (eq : Expr → Expr → Bool) (j : Junction) (l r l' r' : Expr) :
    eliminateEqWith eq (two j l r) (two j l' r') =
      ((eliminateEqType eq j (two j l r) (two j l' r')).1.eliminateYn,
        (eliminateEqType eq j (two j l r) (two j l' r')).2.eliminateYn) := by
  obtain ⟨l2, r2, h2⟩ := @pairAll_two j eq (two j l r) l' r'
  have h1 : ∃ l1 r1, (eliminateEqType eq j (two j l r) (two j l' r')).1 = two j l1 r1 := by
    simp [eliminateEqType, pairAll]
  obtain ⟨l1, r1, h1⟩ := h1
  have hkind : (eliminateEqType eq j (two j l r) (two j l' r')).1.kind =
      (eliminateEqType eq j (two j l r) (two j l' r')).2.kind := by
    rw [h1, eliminateEqType, h2]
    cases j <;> rfl
  simp only [eliminateEqWith, junction?, eliminateEqOf, hkind, ne_eq, not_true_eq_false, if_false]

theorem eliminateEqWith_congr {l r l' r' : Expr}
    (hagree : AgreeBelow (two j l r).height eq eq') :
    eliminateEqWith eq (two j l r) (two j l' r') =
      eliminateEqWith eq' (two j l r) (two j l' r') := by
  have hpair : eliminateEqType eq j (two j l r) (two j l' r') =
      eliminateEqType eq' j (two j l r) (two j l' r') := by
    simp only [height] at hagree
    simp only [eliminateEqType, pairAll, if_true]
    rw [pairAll_congr hagree (by omega), pairAll_congr hagree (by omega)]
  rw [eliminateEqWith_two, eliminateEqWith_two, hpair]

end Below

/-- One call for each level is enough: with more, the answer is the same. -/
theorem exprEqFuel_eq {n m : Nat} (hn : e1.height < n) (hm : e1.height < m) :
    exprEqFuel n e1 e2 = exprEqFuel m e1 e2 := by
  induction n generalizing m e1 e2 with
  | zero => exact absurd hn (Nat.not_lt_zero _)
  | succ n ih =>
    obtain ⟨m, rfl⟩ := Nat.exists_eq_add_of_lt (Nat.lt_of_le_of_lt (Nat.zero_le _) hm)
    rw [Nat.zero_add] at hm ⊢
    cases e1 with
    | symbol s => cases e2 <;> rfl
    | comp b s t => cases e2 <;> rfl
    | not a =>
      cases e2 with
      | not b =>
        simp only [height] at hn hm
        exact ih (Nat.lt_of_succ_lt_succ hn) (Nat.lt_of_succ_lt_succ hm)
      | symbol s => rfl
      | comp b s t => rfl
      | two j l r => rfl
    | two j l r =>
      cases e2 with
      | two j' l' r' =>
        simp only [exprEqFuel]
        by_cases hj : j = j'
        · subst hj
          have hagree : AgreeBelow (two j l r).height (exprEqFuel n) (exprEqFuel m) := by
            intro a b ha
            exact ih (Nat.lt_of_lt_of_le ha (Nat.le_of_lt_succ hn))
              (Nat.lt_of_lt_of_le ha (Nat.le_of_lt_succ hm))
          rw [eliminateEqWith_congr hagree]
        · simp [hj]
      | symbol s => rfl
      | comp b s t => rfl
      | not a => rfl

/-- `expr_eq`. -/
def exprEq (e1 e2 : Expr) : Bool := exprEqFuel (e1.height + 1) e1 e2

/-- `expr_eliminate_eq`. -/
def eliminateEq (e1 e2 : Expr) : Expr × Expr := eliminateEqWith exprEq e1 e2

@[simp] theorem exprEq_not (e1 e2 : Expr) : exprEq (not e1) (not e2) = exprEq e1 e2 := rfl

@[simp] theorem exprEq_symbol (s t : Symbol) : exprEq (symbol s) (symbol t) = decide (s = t) := rfl

/-- The branch `E_AND` and `E_OR` of `expr_eq`, with `expr_eliminate_eq` as it is called
elsewhere. -/
theorem exprEq_two (j j' : Junction) (l r l' r' : Expr) :
    exprEq (two j l r) (two j' l' r') =
      (decide (j = j') && sameSymbol (eliminateEq (two j l r) (two j' l' r')).1
        (eliminateEq (two j l r) (two j' l' r')).2) := by
  by_cases hj : j = j'
  · subst hj
    have hagree : AgreeBelow (two j l r).height (exprEqFuel (two j l r).height) exprEq :=
      fun a b ha ↦ exprEqFuel_eq ha (Nat.lt_succ_self _)
    simp only [exprEq, exprEqFuel, eliminateEq]
    rw [eliminateEqWith_congr hagree]
  · simp [exprEq, exprEqFuel, hj]

theorem exprEq_sound (env : Env) (h : exprEq e1 e2 = true) :
    e1.calcValue env = e2.calcValue env :=
  soundEq_exprEqFuel env _ e1 e2 h

theorem reflects_eliminateEq (env : Env) (e1 e2 : Expr) :
    Reflects (e1.calcValue env) (e2.calcValue env)
      ((eliminateEq e1 e2).1.calcValue env) ((eliminateEq e1 e2).2.calcValue env) :=
  reflects_eliminateEqWith (fun _ _ h ↦ exprEq_sound env h) e1 e2

end MotionPie.Support.Kconfig.Expr
