import MotionPie.Support.Kconfig.EliminateEq

/-!
# Two operands in one

`expr_join_or` and `expr_join_and` replace two operands by one when they know how. What they know
are rules for one symbol of type boolean or tristate, and that two equal operands are one.
-/

namespace MotionPie.Support.Kconfig.Expr

variable {env : Env} {j : Junction} {e e1 e2 r : Expr} {s t t' : Symbol} {b : Bool}

/-- `sym1`: the symbol of the first operand, `support/kconfig/expr.c` lines 353–363. -/
def joinSym1 : Expr → Option Symbol
  | symbol s => some s
  | comp _ s _ => some s
  | not (symbol s) => some s
  | not (comp _ s _) => some s
  | _ => none

/-- `sym2`: the symbol of the second operand, which is not looked for in a negated comparison,
`support/kconfig/expr.c` lines 355–369. -/
def joinSym2 : Expr → Option Symbol
  | symbol s => some s
  | comp _ s _ => some s
  | not (symbol s) => some s
  | _ => none

/-- The operand is a symbol. -/
def isSymbol : Expr → Bool
  | symbol _ => true
  | _ => false

/-- The operand is the negation of a symbol. -/
def isNotSymbol : Expr → Bool
  | not (symbol _) => true
  | _ => false

/-- The operand is a comparison with the symbol. -/
def isComp (b : Bool) (t : Symbol) : Expr → Bool
  | comp b' _ t' => b' = b && t' = t
  | _ => false

/-- One operand is compared with one symbol, and the other operand with the other symbol. -/
def isCompPair (b : Bool) (t t' : Symbol) (e1 e2 : Expr) : Bool :=
  (isComp b t e1 && isComp b t' e2) || (isComp b t' e1 && isComp b t e2)

/-- One operand is a symbol, and the other one a comparison. -/
def isSymbolComp (b : Bool) (t : Symbol) (e1 e2 : Expr) : Bool :=
  (isSymbol e1 && isComp b t e2) || (isSymbol e2 && isComp b t e1)

/-- The rules of `expr_join_or` for one symbol, `support/kconfig/expr.c` lines 372–407. -/
def joinOrSym (s : Symbol) (e1 e2 : Expr) : Option Expr :=
  if s.type ≠ .boolean ∧ s.type ≠ .tristate then none
  -- (a='y') || (a='m') -> (a!='n')
  else if s.type = .tristate ∧ isCompPair true .yes .mod e1 e2 then some (comp false s .no)
  -- (a='y') || (a='n') -> (a!='m')
  else if s.type = .tristate ∧ isCompPair true .yes .no e1 e2 then some (comp false s .mod)
  -- (a='m') || (a='n') -> (a!='y')
  else if s.type = .tristate ∧ isCompPair true .mod .no e1 e2 then some (comp false s .yes)
  else if s.type = .boolean ∧
      ((isNotSymbol e1 && isSymbol e2) || (isNotSymbol e2 && isSymbol e1)) then
    some (symbol .yes)
  else none

/-- The rule for a comparison and a negated comparison with two constants,
`support/kconfig/expr.c` lines 455–468: (a='b') && (a!='c') -> 'b'='c' ? 'n' : a='b'. -/
def joinConst (s : Symbol) : Expr → Expr → Option Expr
  | comp true _ t, comp false _ t' =>
    if t'.isConst ∧ t.isConst then some (if t ≠ t' then comp true s t else symbol .no) else none
  | comp false _ t', comp true _ t =>
    if t'.isConst ∧ t.isConst then some (if t ≠ t' then comp true s t else symbol .no) else none
  | _, _ => none

/-- The rules of `expr_join_and` for one symbol, `support/kconfig/expr.c` lines 436–501. -/
def joinAndSym (s : Symbol) (e1 e2 : Expr) : Option Expr :=
  if s.type ≠ .boolean ∧ s.type ≠ .tristate then none
  -- (a) && (a='y') -> (a='y')
  else if isSymbolComp true .yes e1 e2 then some (comp true s .yes)
  -- (a) && (a!='n') -> (a)
  else if isSymbolComp false .no e1 e2 then some (symbol s)
  -- (a) && (a!='m') -> (a='y')
  else if isSymbolComp false .mod e1 e2 then some (comp true s .yes)
  else if s.type = .tristate then
    if (joinConst s e1 e2).isSome then joinConst s e1 e2
    -- (a!='y') && (a!='n') -> (a='m')
    else if isCompPair false .yes .no e1 e2 then some (comp true s .mod)
    -- (a!='y') && (a!='m') -> (a='n')
    else if isCompPair false .yes .mod e1 e2 then some (comp true s .no)
    -- (a!='m') && (a!='n') -> (a='y')
    else if isCompPair false .mod .no e1 e2 then some (comp true s .yes)
    else none
  else none

/-- `expr_join_or` and `expr_join_and`, `support/kconfig/expr.c` lines 346–502, which differ in
their rules for one symbol. -/
def joinWith (rules : Symbol → Expr → Expr → Option Expr) (e1 e2 : Expr) : Option Expr :=
  if exprEq e1 e2 then some e1
  else match joinSym1 e1, joinSym2 e2 with
    | some s, some t => if s ≠ t then none else rules s e1 e2
    | _, _ => none

/-- `expr_join_or`, `support/kconfig/expr.c` lines 346–408. -/
def joinOr : Expr → Expr → Option Expr := joinWith joinOrSym

/-- `expr_join_and`, `support/kconfig/expr.c` lines 410–502. -/
def joinAnd : Expr → Expr → Option Expr := joinWith joinAndSym

/-- The operands of a node of the type are joined. -/
def join : Junction → Expr → Expr → Option Expr
  | .or => joinOr
  | .and => joinAnd

theorem isComp_iff : isComp b t e = true ↔ ∃ s, e = comp b s t := by
  cases e <;> simp [isComp]

theorem isSymbol_iff : isSymbol e = true ↔ ∃ s, e = symbol s := by
  cases e <;> simp [isSymbol]

theorem isNotSymbol_iff : isNotSymbol e = true ↔ ∃ s, e = not (symbol s) := by
  unfold isNotSymbol
  split <;> simp_all

/-! ### The value of the one operand -/

/-- What the rules for one symbol need to know about the operands. -/
structure SameSym (s : Symbol) (e1 e2 : Expr) : Prop where
  left : joinSym1 e1 = some s
  right : joinSym2 e2 = some s
  type : s.type = .boolean ∨ s.type = .tristate

theorem SameSym.compPair (h : SameSym s e1 e2) (hp : isCompPair b t t' e1 e2 = true) :
    (e1 = comp b s t ∧ e2 = comp b s t') ∨ (e1 = comp b s t' ∧ e2 = comp b s t) := by
  obtain ⟨hl, hr, -⟩ := h
  simp only [isCompPair, Bool.or_eq_true, Bool.and_eq_true, isComp_iff] at hp
  rcases hp with ⟨⟨s1, rfl⟩, ⟨s2, rfl⟩⟩ | ⟨⟨s1, rfl⟩, ⟨s2, rfl⟩⟩
  · cases hl
    cases hr
    exact .inl ⟨rfl, rfl⟩
  · cases hl
    cases hr
    exact .inr ⟨rfl, rfl⟩

theorem SameSym.symbolComp (h : SameSym s e1 e2) (hp : isSymbolComp b t e1 e2 = true) :
    (e1 = symbol s ∧ e2 = comp b s t) ∨ (e1 = comp b s t ∧ e2 = symbol s) := by
  obtain ⟨hl, hr, -⟩ := h
  simp only [isSymbolComp, Bool.or_eq_true, Bool.and_eq_true, isComp_iff, isSymbol_iff] at hp
  rcases hp with ⟨⟨s1, rfl⟩, ⟨s2, rfl⟩⟩ | ⟨⟨s1, rfl⟩, ⟨s2, rfl⟩⟩
  · cases hl
    cases hr
    exact .inl ⟨rfl, rfl⟩
  · cases hl
    cases hr
    exact .inr ⟨rfl, rfl⟩

theorem SameSym.negated (h : SameSym s e1 e2)
    (hp : ((isNotSymbol e1 && isSymbol e2) || (isNotSymbol e2 && isSymbol e1)) = true) :
    (e1 = not (symbol s) ∧ e2 = symbol s) ∨ (e1 = symbol s ∧ e2 = not (symbol s)) := by
  obtain ⟨hl, hr, -⟩ := h
  simp only [Bool.or_eq_true, Bool.and_eq_true, isNotSymbol_iff, isSymbol_iff] at hp
  rcases hp with ⟨⟨s1, rfl⟩, ⟨s2, rfl⟩⟩ | ⟨⟨s1, rfl⟩, ⟨s2, rfl⟩⟩
  · cases hl
    cases hr
    exact .inl ⟨rfl, rfl⟩
  · cases hl
    cases hr
    exact .inr ⟨rfl, rfl⟩

/-- A pair of comparisons has one value in both orders. -/
theorem op_compPair (h : SameSym s e1 e2) (hp : isCompPair b t t' e1 e2 = true) :
    j.op (e1.calcValue env) (e2.calcValue env) =
      j.op ((comp b s t).calcValue env) ((comp b s t').calcValue env) := by
  rcases h.compPair hp with ⟨rfl, rfl⟩ | ⟨rfl, rfl⟩
  · rfl
  · exact Std.Commutative.comm _ _

theorem op_symbolComp (h : SameSym s e1 e2) (hp : isSymbolComp b t e1 e2 = true) :
    j.op (e1.calcValue env) (e2.calcValue env) =
      j.op (env.tri s) ((comp b s t).calcValue env) := by
  rcases h.symbolComp hp with ⟨rfl, rfl⟩ | ⟨rfl, rfl⟩
  · rfl
  · exact Std.Commutative.comm _ _

theorem joinOrSym_sound (env : Env) (h : SameSym s e1 e2) (hj : joinOrSym s e1 e2 = some r) :
    r.calcValue env = Tristate.or (e1.calcValue env) (e2.calcValue env) := by
  have hyes := fun b ↦ calcValue_comp_yes env b h.type
  have hmod := fun b ↦ calcValue_comp_mod env b h.type
  have hno := fun b ↦ calcValue_comp_no env b h.type
  change _ = Junction.or.op _ _
  unfold joinOrSym at hj
  split_ifs at hj with h1 h2 h3 h4 h5
  · cases hj
    rw [op_compPair h h2.2, hyes, hmod, hno]
    cases env.tri s <;> rfl
  · cases hj
    rw [op_compPair h h3.2, hyes, hmod, hno]
    cases env.tri s <;> rfl
  · cases hj
    rw [op_compPair h h4.2, hyes, hmod, hno]
    cases env.tri s <;> rfl
  · cases hj
    -- a boolean symbol is `n` or `y`
    have hbool := env.tri_boolean s h5.1
    rcases h.negated h5.2 with ⟨rfl, rfl⟩ | ⟨rfl, rfl⟩
    all_goals
      simp only [calcValue, env.tri_yes]
      revert hbool
      cases env.tri s <;> decide

theorem op_joinConst (h : SameSym s e1 e2) (hj : joinConst s e1 e2 = some r) :
    r.calcValue env = Tristate.and (e1.calcValue env) (e2.calcValue env) := by
  -- `a` is compared with `t`, and must not be `t'`
  have key (t t' : Symbol) (hconst : t'.isConst ∧ t.isConst) :
      (if t ≠ t' then comp true s t else symbol .no).calcValue env =
        Tristate.and ((comp true s t).calcValue env) ((comp false s t').calcValue env) := by
    obtain ⟨n', rfl⟩ : ∃ n, t' = .const n := by
      cases t' <;> simp_all [Symbol.isConst]
    obtain ⟨n, rfl⟩ : ∃ n, t = .const n := by
      cases t <;> simp_all [Symbol.isConst]
    by_cases hn : n = n'
    · subst hn
      simp only [ne_eq, not_true_eq_false, if_false, calcValue, env.str_const, env.tri_no]
      by_cases hs : env.str s = n <;> simp [hs, Tristate.ofBool] <;> rfl
    · have hne : Symbol.const n ≠ .const n' := by simpa using hn
      simp only [hne, ne_eq, not_false_eq_true, if_true, calcValue, env.str_const]
      by_cases hs : env.str s = n
      · simp [hs, hn, Tristate.ofBool]
        rfl
      · by_cases hs' : env.str s = n' <;> simp [hs, hs', Ne.symm hn, Tristate.ofBool] <;> rfl
  obtain ⟨hl, hr, -⟩ := h
  unfold joinConst at hj
  split at hj
  · cases hl
    cases hr
    rw [Option.ite_none_right_eq_some] at hj
    obtain ⟨hconst, ⟨⟩⟩ := hj
    exact key _ _ hconst
  · cases hl
    cases hr
    rw [Option.ite_none_right_eq_some] at hj
    obtain ⟨hconst, ⟨⟩⟩ := hj
    rw [key _ _ hconst]
    exact (Junction.and.op_commutative).comm _ _
  · cases hj

theorem joinAndSym_sound (env : Env) (h : SameSym s e1 e2) (hj : joinAndSym s e1 e2 = some r) :
    r.calcValue env = Tristate.and (e1.calcValue env) (e2.calcValue env) := by
  have hyes := fun b ↦ calcValue_comp_yes env b h.type
  have hmod := fun b ↦ calcValue_comp_mod env b h.type
  have hno := fun b ↦ calcValue_comp_no env b h.type
  change _ = Junction.and.op _ _
  unfold joinAndSym at hj
  split_ifs at hj with h1 h2 h3 h4 h5 h6 h7 h8 h9
  · cases hj
    rw [op_symbolComp h h2, hyes]
    cases env.tri s <;> rfl
  · cases hj
    rw [op_symbolComp h h3, hno, calcValue]
    cases env.tri s <;> rfl
  · cases hj
    rw [op_symbolComp h h4, hmod, hyes]
    cases env.tri s <;> rfl
  · exact op_joinConst h hj
  · cases hj
    rw [op_compPair h h7, hyes, hmod, hno]
    cases env.tri s <;> rfl
  · cases hj
    rw [op_compPair h h8, hyes, hmod, hno]
    cases env.tri s <;> rfl
  · cases hj
    rw [op_compPair h h9, hyes, hmod, hno]
    cases env.tri s <;> rfl

/-! ### What the one operand is -/

/-- The result is the first operand, or it has one node. -/
inductive Joined (e1 : Expr) : Expr → Prop
  | copy : Joined e1 e1
  | comp (b : Bool) (s t : Symbol) : Joined e1 (comp b s t)
  | symbol (s : Symbol) : Joined e1 (symbol s)

theorem joined_joinOrSym (hj : joinOrSym s e1 e2 = some r) : Joined e1 r := by
  unfold joinOrSym at hj
  split_ifs at hj <;> cases hj <;> constructor

theorem joined_joinConst (hj : joinConst s e1 e2 = some r) : Joined e1 r := by
  unfold joinConst at hj
  split at hj
  · split_ifs at hj <;> cases hj <;> constructor
  · split_ifs at hj <;> cases hj <;> constructor
  · cases hj

theorem joined_joinAndSym (hj : joinAndSym s e1 e2 = some r) : Joined e1 r := by
  unfold joinAndSym at hj
  split_ifs at hj
  all_goals first
    | exact joined_joinConst hj
    | cases hj; constructor

/-- The result of `expr_join_or` and `expr_join_and`: a copy of equal operands, or what a rule
for one symbol makes of them. -/
theorem joinWith_eq_some {rules : Symbol → Expr → Expr → Option Expr}
    (hrules : ∀ s r, rules s e1 e2 = some r → s.type = .boolean ∨ s.type = .tristate)
    (hj : joinWith rules e1 e2 = some r) :
    (exprEq e1 e2 = true ∧ r = e1) ∨ ∃ s, SameSym s e1 e2 ∧ rules s e1 e2 = some r := by
  unfold joinWith at hj
  split_ifs at hj with heq
  · cases hj
    exact .inl ⟨heq, rfl⟩
  · right
    cases hl : joinSym1 e1 with
    | none => simp [hl] at hj
    | some s =>
      cases hr : joinSym2 e2 with
      | none => simp [hl, hr] at hj
      | some t =>
        simp only [hl, hr, ne_eq, ite_not] at hj
        split_ifs at hj with hst
        subst hst
        exact ⟨s, ⟨hl, hr, hrules s r hj⟩, hj⟩

theorem type_of_joinOrSym (hj : joinOrSym s e1 e2 = some r) :
    s.type = .boolean ∨ s.type = .tristate := by
  by_contra h
  rw [not_or] at h
  simp [joinOrSym, h.1, h.2] at hj

theorem type_of_joinAndSym (hj : joinAndSym s e1 e2 = some r) :
    s.type = .boolean ∨ s.type = .tristate := by
  by_contra h
  rw [not_or] at h
  simp [joinAndSym, h.1, h.2] at hj

/-- The one operand has the value that the two have together, whatever the symbols are. -/
theorem join_sound (env : Env) (hj : join j e1 e2 = some r) :
    r.calcValue env = j.op (e1.calcValue env) (e2.calcValue env) := by
  cases j with
  | or =>
    rcases joinWith_eq_some (fun _ _ ↦ type_of_joinOrSym) hj with ⟨heq, rfl⟩ | ⟨s, hs, hj⟩
    · rw [exprEq_sound env heq, Junction.op_self]
    · exact joinOrSym_sound env hs hj
  | and =>
    rcases joinWith_eq_some (fun _ _ ↦ type_of_joinAndSym) hj with ⟨heq, rfl⟩ | ⟨s, hs, hj⟩
    · rw [exprEq_sound env heq, Junction.op_self]
    · exact joinAndSym_sound env hs hj

theorem joined_join (hj : join j e1 e2 = some r) : Joined e1 r := by
  cases j with
  | or =>
    rcases joinWith_eq_some (fun _ _ ↦ type_of_joinOrSym) hj with ⟨-, rfl⟩ | ⟨s, -, hj⟩
    · exact .copy
    · exact joined_joinOrSym hj
  | and =>
    rcases joinWith_eq_some (fun _ _ ↦ type_of_joinAndSym) hj with ⟨-, rfl⟩ | ⟨s, -, hj⟩
    · exact .copy
    · exact joined_joinAndSym hj

/-- Equal operands are joined. -/
theorem join_of_exprEq (j : Junction) (h : exprEq e1 e2 = true) : join j e1 e2 = some e1 := by
  cases j <;> exact if_pos h

theorem Joined.size_lt (h : Joined e1 r) (e2 : Expr) : r.size < e1.size + e2.size := by
  have h1 := size_pos e1
  have h2 := size_pos e2
  cases h with
  | copy => omega
  | _ =>
    simp only [size]
    omega

theorem Joined.junction? (h : Joined e1 r) (h1 : e1.junction? ≠ some j) :
    r.junction? ≠ some j := by
  cases h with
  | copy => exact h1
  | _ => simp [Expr.junction?]

/-! ### What joining keeps -/

/-- A law about the operands one by one, which joining two of them does not break. -/
structure Hereditary (P : Expr → Prop) : Prop where
  two : ∀ j l r, P (two j l r) ↔ P l ∧ P r
  constant : ∀ j : Junction, P (symbol j.symbol)
  join : ∀ j a b r, P a → P b → join j a b = some r → P r

theorem Hereditary.constant_dual {P : Expr → Prop} (hP : Hereditary P) (j : Junction) :
    P (symbol j.dual.symbol) := hP.constant j.dual

theorem Hereditary.eliminateYn {P : Expr → Prop} (hP : Hereditary P) (he : P e) :
    P e.eliminateYn := by
  induction e with
  | symbol s => exact he
  | not e ih => exact he
  | comp b s t => exact he
  | two j l r ihl ihr =>
    obtain ⟨hl, hr⟩ := (hP.two j l r).mp he
    rw [eliminateYn_two]
    split_ifs
    · exact ihr hr
    · exact hP.constant_dual j
    · exact ihl hl
    · exact hP.constant_dual j
    · exact (hP.two j _ _).mpr ⟨ihl hl, ihr hr⟩

end MotionPie.Support.Kconfig.Expr
