import MotionPie.Support.Kconfig.Irredundant

/-!
# The conditions of a menu

`menu_finalize` gives every entry the conditions of the menus above it, in normal form and without
duplicates, and it puts an entry below the symbol before it when its condition depends on that
symbol. What it relies on is that no symbol is `m`.
-/

namespace MotionPie.Support.Kconfig

/-- No symbol is `m` but the constant. It is so where no symbol is the modules option: every
tristate symbol counts as boolean then, `support/kconfig/symbol.c` lines 63–74. -/
def Env.TwoValued (env : Env) : Prop := ∀ sym, sym ≠ .mod → env.tri sym ≠ .mod

namespace Expr

variable {env : Env} {j : Junction} {e r : Expr} {sym : Symbol}

/-! ### Laws that the simplification keeps -/

/-- The constant `m` does not stand alone. -/
def WithoutMod : Expr → Prop
  | symbol s => s ≠ .mod
  | not e => e.WithoutMod
  | comp _ _ _ => True
  | two _ l r => l.WithoutMod ∧ r.WithoutMod

/-- What stands alone has the values of a boolean or a tristate symbol, or is `y` or `n`. -/
def Logical : Expr → Prop
  | symbol s => s = .yes ∨ s = .no ∨ s.type = .boolean ∨ s.type = .tristate
  | not e => e.Logical
  | comp _ _ _ => True
  | two _ l r => l.Logical ∧ r.Logical

theorem WithoutMod.calcValue_ne (he : e.WithoutMod) (henv : env.TwoValued) :
    e.calcValue env ≠ .mod := by
  induction e with
  | symbol s => exact henv s he
  | not e ih => exact Tristate.not_ne_mod (ih he)
  | comp b s t => cases b <;> exact Tristate.ofBool_ne_mod _
  | two j l r ihl ihr => exact j.op_ne_mod (ihl he.1) (ihr he.2)

theorem ne_mod_of_type (h : sym.type = .boolean ∨ sym.type = .tristate) : sym ≠ .mod := by
  rintro rfl
  simp [Symbol.type, Symbol.mod] at h

theorem Logical.withoutMod (he : e.Logical) : e.WithoutMod := by
  induction e with
  | symbol s =>
    rcases he with rfl | rfl | hs
    · exact (by decide : Symbol.yes ≠ .mod)
    · exact (by decide : Symbol.no ≠ .mod)
    · exact ne_mod_of_type hs
  | not e ih => exact ih he
  | comp b s t => trivial
  | two j l r ihl ihr => exact ⟨ihl he.1, ihr he.2⟩

/-- What joining two operands makes of them: an operand, a comparison of a tristate symbol or one
with a symbol that stood alone, a constant, or a symbol of type boolean or tristate. -/
theorem join_cases {P : Expr → Prop} {a b : Expr} (hj : join j a b = some r) (ha : P a)
    (hconst : ∀ j : Junction, P (symbol j.symbol))
    (hsym : ∀ s : Symbol, s.type = .boolean ∨ s.type = .tristate → P (symbol s))
    (htri : ∀ c s t, s.type = .tristate → P (comp c s t))
    (hcomp : ∀ c s t, P (comp c s t) → (t = .yes ∨ t = .mod ∨ t = .no) → P (comp true s .yes))
    (hb : P b) : P r := by
  cases j with
  | or =>
    rcases joinWith_eq_some (fun _ _ ↦ type_of_joinOrSym) hj with ⟨-, rfl⟩ | ⟨s, -, hj⟩
    · exact ha
    · unfold joinOrSym at hj
      split_ifs at hj with h1 h2 h3 h4 h5
      · cases hj
        exact htri _ _ _ h2.1
      · cases hj
        exact htri _ _ _ h3.1
      · cases hj
        exact htri _ _ _ h4.1
      · cases hj
        exact hconst .and
  | and =>
    rcases joinWith_eq_some (fun _ _ ↦ type_of_joinAndSym) hj with ⟨-, rfl⟩ | ⟨s, hs, hj⟩
    · exact ha
    · have hpair {c : Bool} {t : Symbol} (h : isSymbolComp c t a b = true) : P (comp c s t) := by
        rcases hs.symbolComp h with ⟨-, rfl⟩ | ⟨rfl, -⟩
        · exact hb
        · exact ha
      unfold joinAndSym at hj
      split_ifs at hj with h1 h2 h3 h4 h5 h6 h7 h8 h9
      · cases hj
        exact hcomp _ _ _ (hpair h2) (.inl rfl)
      · cases hj
        exact hsym s hs.type
      · cases hj
        exact hcomp _ _ _ (hpair h4) (.inr (.inl rfl))
      · unfold joinConst at hj
        split at hj
        · split_ifs at hj
          · cases hj
            exact htri _ _ _ h5
          · cases hj
            exact hconst .or
        · split_ifs at hj
          · cases hj
            exact htri _ _ _ h5
          · cases hj
            exact hconst .or
        · cases hj
      all_goals
        cases hj
        exact htri _ _ _ h5

theorem hereditary_normal : Hereditary Normal where
  two _ _ _ := Iff.rfl
  constant _ := trivial
  join _ _ _ _ ha hb hj := by
    refine join_cases hj ha (fun _ ↦ trivial) (fun _ _ ↦ trivial) (fun c s t hs h ↦ ?_)
      (fun c s t h ht hs ↦ ?_) hb
    · rw [hs] at h
      cases h
    · obtain ⟨hy, hm, hn⟩ := h hs
      rcases ht with rfl | rfl | rfl
      · exact absurd rfl hy
      · exact absurd rfl hm
      · exact absurd rfl hn

/-- What `expr_join_or` and `expr_join_and` make of two operands has the value that the two have
together in every configuration, is smaller than the two, and is a normal form if both are; two
operands that are equal are joined always. -/
theorem join_spec {e1 e2 : Expr} (hj : join j e1 e2 = some r) :
    (∀ env, r.calcValue env = j.op (e1.calcValue env) (e2.calcValue env)) ∧
      r.size < e1.size + e2.size ∧ (e1.Normal → e2.Normal → r.Normal) ∧
      ∀ e, exprEq e1 e = true → join j e1 e = some e1 :=
  ⟨fun env ↦ join_sound env hj, (joined_join hj).size_lt e2,
    fun h1 h2 ↦ hereditary_normal.join j e1 e2 r h1 h2 hj, fun _ ↦ join_of_exprEq j⟩

/-- For a tristate symbol, `a=y || a=m` is `a!=n`. -/
theorem join_spec_or :
    let a := Symbol.config (Base.str "A") .tristate
    (∀ env, (comp false a .no).calcValue env =
      Junction.or.op ((comp true a .yes).calcValue env) ((comp true a .mod).calcValue env)) ∧
      (comp false a .no).size < (comp true a .yes).size + (comp true a .mod).size ∧
      ((comp true a .yes).Normal → (comp true a .mod).Normal → (comp false a .no).Normal) ∧
      ∀ e, exprEq (comp true a .yes) e = true →
        join .or (comp true a .yes) e = some (comp true a .yes) :=
  join_spec (by decide +kernel)

/-- A law about what stands alone, which all symbols of type boolean or tristate meet. -/
structure Leafwise (P : Expr → Prop) : Prop where
  two : ∀ j l r, P (two j l r) ↔ P l ∧ P r
  not : ∀ e, P (not e) ↔ P e
  comp : ∀ b s t, P (comp b s t)
  constant : ∀ j : Junction, P (symbol j.symbol)
  symbol : ∀ s : Symbol, s.type = .boolean ∨ s.type = .tristate → P (symbol s)

theorem leafwise_withoutMod : Leafwise WithoutMod where
  two _ _ _ := Iff.rfl
  not _ := Iff.rfl
  comp _ _ _ := trivial
  constant j := by
    cases j
    · exact (by decide : Symbol.no ≠ .mod)
    · exact (by decide : Symbol.yes ≠ .mod)
  symbol _ hs := ne_mod_of_type hs

theorem leafwise_logical : Leafwise Logical where
  two _ _ _ := Iff.rfl
  not _ := Iff.rfl
  comp _ _ _ := trivial
  constant j := by cases j <;> simp [Logical, Junction.symbol]
  symbol _ hs := .inr (.inr hs)

variable {P : Expr → Prop}

theorem Leafwise.hereditary (hP : Leafwise P) : Hereditary P where
  two := hP.two
  constant := hP.constant
  join _ _ _ _ ha hb hj :=
    join_cases hj ha hP.constant hP.symbol (fun _ _ _ _ ↦ hP.comp _ _ _)
      (fun _ _ _ _ _ ↦ hP.comp _ _ _) hb

theorem Leafwise.transformComp (hP : Leafwise P) (b : Bool) (s t : Symbol) :
    P (transformComp b s t) := by
  unfold Expr.transformComp
  split_ifs with hs
  all_goals first
    | exact hP.comp _ _ _
    | exact hP.constant .or
    | exact hP.constant .and
    | exact hP.symbol s (.inl (not_not.mp hs))
    | exact (hP.not _).mpr (hP.symbol s (.inl (not_not.mp hs)))

theorem Leafwise.transformFuel (hP : Leafwise P) {fuel : Nat}
    (h : transformFuel fuel e = some r) (he : P e) : P r := by
  induction fuel generalizing e r with
  | zero => cases h
  | succ fuel ih =>
    cases e with
    | symbol s =>
      cases h
      exact he
    | comp b s t =>
      cases h
      exact hP.transformComp b s t
    | not e =>
      rw [Expr.transformFuel, Option.bind_eq_bind, Option.bind_eq_some_iff] at h
      obtain ⟨n, hn, hr⟩ := h
      have hpn := ih hn ((hP.not e).mp he)
      cases n with
      | symbol s =>
        cases hr
        split_ifs with hy hm hno
        · exact hP.constant .or
        · exact hm ▸ hpn
        · exact hP.constant .and
        · exact (hP.not _).mpr hpn
      | comp b s t =>
        cases hr
        exact hP.comp _ _ _
      | not a => exact ih hr ((hP.not a).mp hpn)
      | two j a b =>
        obtain ⟨ha, hb⟩ := (hP.two j a b).mp hpn
        exact ih hr ((hP.two _ _ _).mpr ⟨(hP.not a).mpr ha, (hP.not b).mpr hb⟩)
    | two j l r' =>
      simp only [Expr.transformFuel, Option.bind_eq_bind, Option.bind_eq_some_iff] at h
      obtain ⟨l', hl, r'', hr, h⟩ := h
      cases h
      obtain ⟨hpl, hpr⟩ := (hP.two j l r').mp he
      exact (hP.two j _ _).mpr ⟨ih hl hpl, ih hr hpr⟩

theorem Leafwise.transform (hP : Leafwise P) (he : P e) : P e.transform :=
  hP.transformFuel (transformFuel_eq_transform (Nat.le_refl _)) he

theorem Leafwise.eliminateDups (hP : Leafwise P) (he : P e) : P e.eliminateDups :=
  (eliminated_eliminateDups e).kept P hP.hereditary he

/-- What `menu_finalize` makes of a condition is a normal form still. -/
theorem normal_eliminateDups_transform (e : Expr) : e.transform.eliminateDups.Normal :=
  (eliminated_eliminateDups _).kept _ hereditary_normal (isNormalForm_transform e).normal

/-- Without `m`, the elimination of duplicates keeps the value. -/
theorem calcValue_eliminateDups (he : e.WithoutMod) (henv : env.TwoValued) :
    e.eliminateDups.calcValue env = e.calcValue env :=
  ((eliminated_eliminateDups e).decided env).resolve_right (he.calcValue_ne henv)

/-! ### What an expression says about a symbol -/

/-- `expr_trans_bool`, `support/kconfig/expr.c` lines 317–341. -/
def transBool : Expr → Expr
  | two j l r => two j l.transBool r.transBool
  | not e => not e.transBool
  | comp false s t =>
    -- FOO!=n -> FOO
    if s.type = .tristate ∧ t = .no then symbol s else comp false s t
  | e => e

/-- `expr_contains_symbol`, `support/kconfig/expr.c` lines 773–795. -/
def containsSymbol (sym : Symbol) : Expr → Bool
  | two _ l r => l.containsSymbol sym || r.containsSymbol sym
  | symbol s => s = sym
  | comp _ s t => s = sym || t = sym
  | not e => e.containsSymbol sym

/-- `expr_depends_symbol`, `support/kconfig/expr.c` lines 797–824. -/
def dependsSymbol (sym : Symbol) : Expr → Bool
  | two .and l r => l.dependsSymbol sym || r.dependsSymbol sym
  | symbol s => s = sym
  | comp true s t => s = sym && (t = .yes || t = .mod)
  | comp false s t => s = sym && t = .no
  | _ => false

/-- `expr_trans_compare` for an expression, `support/kconfig/expr.c` lines 886–936. `equal` tells
`E_EQUAL` from `E_UNEQUAL`. Nothing is a null pointer. -/
def transCompare (sym : Symbol) : Expr → Bool → Option Expr
  | two j l r, equal =>
    let both :=
      if sym = .yes then
        (l.transCompare sym true).bind fun e1 ↦ (r.transCompare sym true).map (two j e1)
      else if sym = .no then
        (l.transCompare sym true).bind fun e1 ↦ (r.transCompare sym true).map (two j.dual e1)
      else some (two j l r)
    both.map fun e ↦ if equal then e else not e
  | not e, equal => e.transCompare sym (!equal)
  | comp b s t, true =>
    if sym = .yes then some (comp b s t)
    else if sym = .mod then some (symbol .no)
    else if sym = .no then some (not (comp b s t))
    else none
  | comp b s t, false =>
    if sym = .yes then some (not (comp b s t))
    else if sym = .mod then some (symbol .yes)
    else if sym = .no then some (comp b s t)
    else none
  | symbol s, equal => some (comp equal s sym)

/-- Where a configuration differs in a symbol only that the expression does not contain, the
expression has the same value. -/
theorem calcValue_of_containsSymbol {env' : Env} (he : e.containsSymbol sym = false)
    (htri : ∀ s, s ≠ sym → env.tri s = env'.tri s) (hstr : ∀ s, s ≠ sym → env.str s = env'.str s) :
    e.calcValue env = e.calcValue env' := by
  induction e with
  | symbol s => exact htri s (by simpa [containsSymbol] using he)
  | not e ih => rw [calcValue, calcValue, ih he]
  | comp b s t =>
    simp only [containsSymbol, Bool.or_eq_false_iff, decide_eq_false_iff_not] at he
    cases b <;> simp only [calcValue, hstr s he.1, hstr t he.2]
  | two j l r ihl ihr =>
    simp only [containsSymbol, Bool.or_eq_false_iff] at he
    rw [calcValue, calcValue, ihl he.1, ihr he.2]

/-- An expression that depends on a symbol of type boolean or tristate is `n` when that is. -/
theorem calcValue_of_dependsSymbol (he : e.dependsSymbol sym = true)
    (hsym : sym.type = .boolean ∨ sym.type = .tristate) (hno : env.tri sym = .no) :
    e.calcValue env = .no := by
  induction e with
  | symbol s =>
    obtain rfl : s = sym := by simpa [dependsSymbol] using he
    exact hno
  | not e ih => simp [dependsSymbol] at he
  | comp b s t =>
    cases b with
    | true =>
      simp only [dependsSymbol, Bool.and_eq_true, Bool.or_eq_true, decide_eq_true_eq] at he
      obtain ⟨rfl, rfl | rfl⟩ := he
      · rw [calcValue_comp_yes env true hsym, hno]
        rfl
      · rw [calcValue_comp_mod env true hsym, hno]
        rfl
    | false =>
      simp only [dependsSymbol, Bool.and_eq_true, decide_eq_true_eq] at he
      obtain ⟨rfl, rfl⟩ := he
      rw [calcValue_comp_no env false hsym, hno]
      rfl
  | two j l r ihl ihr =>
    cases j with
    | or => simp [dependsSymbol] at he
    | and =>
      simp only [dependsSymbol, Bool.or_eq_true] at he
      rcases he with he | he
      · rw [calcValue, ihl he]
        exact Junction.dual_unit_op .and _
      · rw [calcValue, ihr he]
        exact Junction.op_dual_unit .and _

/-- Without `m` the boolean form of a condition has the value of the condition. -/
theorem calcValue_transBool (henv : env.TwoValued) (e : Expr) :
    e.transBool.calcValue env = e.calcValue env := by
  induction e with
  | symbol s => rfl
  | not e ih => rw [transBool, calcValue, calcValue, ih]
  | two j l r ihl ihr => rw [transBool, calcValue, calcValue, ihl, ihr]
  | comp b s t =>
    cases b with
    | true => rfl
    | false =>
      rw [transBool]
      split_ifs with h
      · obtain ⟨hs, rfl⟩ := h
        have hmod := henv s (ne_mod_of_type (.inr hs))
        rw [calcValue_comp_no env false (.inr hs), calcValue]
        revert hmod
        cases env.tri s <;> decide
      · rfl

/-- A normal form whose value `m` counts as `y`, as in the visibility of a symbol that is not
tristate, has the same value in its boolean form. -/
theorem calcValue_transBool_of_normal (env : Env) (he : e.Normal) :
    e.transBool.calcValue env = .no ↔ e.calcValue env = .no := by
  -- a normal form has no comparison below a negation
  have hop (j : Junction) (a b c d : Tristate) (hac : a = .no ↔ c = .no) (hbd : b = .no ↔ d = .no) :
      j.op a b = .no ↔ j.op c d = .no := by
    revert hac hbd
    cases j <;> cases a <;> cases b <;> cases c <;> cases d <;> decide
  induction e with
  | symbol s => rfl
  | not e ih =>
    cases e with
    | symbol s => rfl
    | not e => exact he.elim
    | comp b s t => exact he.elim
    | two j l r => exact he.elim
  | two j l r ihl ihr =>
    rw [transBool, calcValue, calcValue]
    exact hop j _ _ _ _ (ihl he.1) (ihr he.2)
  | comp b s t =>
    cases b with
    | true => rfl
    | false =>
      rw [transBool]
      split_ifs with h
      · obtain ⟨hs, rfl⟩ := h
        rw [calcValue_comp_no env false (.inr hs), calcValue]
        cases env.tri s <;> decide
      · rfl

/-- Where `a` is `m`, `a!=n` is `y` and its boolean form `m`. -/
theorem calcValue_transBool_of_normal_mod :
    let a := Symbol.config (Base.str "A") .tristate
    let env := oneTristate (Base.str "A") .mod
    (comp false a .no).transBool.calcValue env = .no ↔ (comp false a .no).calcValue env = .no :=
  calcValue_transBool_of_normal _ fun h ↦ absurd h (by decide)

/-- A conjunction is `y` when both operands are, and `n` when one is; a disjunction the other way
round. -/
theorem op_ofBool_unit (j v : Junction) {a b : Tristate} (ha : a ≠ .mod) (hb : b ≠ .mod) :
    (if v = .and then j else j.dual).op (Tristate.ofBool ((a = v.unit) == true))
        (Tristate.ofBool ((b = v.unit) == true)) =
      Tristate.ofBool ((j.op a b = v.unit) == true) := by
  revert ha hb
  cases j <;> cases v <;> cases a <;> cases b <;> decide

/-- Without `m`, comparing an expression with `y` or `n` gives an expression that says whether it
has that value. -/
theorem exists_transCompare (henv : env.TwoValued) (he : e.Logical) (v : Junction) (equal : Bool) :
    ∃ r, e.transCompare v.symbol equal = some r ∧
      r.calcValue env = Tristate.ofBool ((e.calcValue env = v.unit) == equal) := by
  have hyes : Symbol.yes ≠ .no := by decide
  have hno : Symbol.no ≠ .yes := by decide
  have hno' : Symbol.no ≠ .mod := by decide
  induction e generalizing equal with
  | symbol s =>
    refine ⟨_, rfl, ?_⟩
    rcases he with rfl | rfl | hs
    · cases v <;> cases equal <;> simp [calcValue, Junction.symbol, Junction.unit]
    · cases v <;> cases equal <;> simp [calcValue, Junction.symbol, Junction.unit]
    · cases v
      · exact calcValue_comp_no env equal hs
      · exact calcValue_comp_yes env equal hs
  | not e ih =>
    obtain ⟨r, hr, hval⟩ := ih he (!equal)
    refine ⟨r, hr, ?_⟩
    rw [hval, calcValue]
    have hmod := (Logical.withoutMod (e := e) he).calcValue_ne henv
    revert hmod
    cases v <;> cases equal <;> cases e.calcValue env <;> decide
  | comp b s t =>
    have hval : (comp b s t).calcValue env = .yes ∨ (comp b s t).calcValue env = .no := by
      cases b <;> simp only [calcValue, Tristate.ofBool] <;> split_ifs <;> simp
    cases v <;> cases equal
    all_goals
      simp only [transCompare, Junction.symbol, if_true, if_neg hno, if_neg hno']
      refine ⟨_, rfl, ?_⟩
      rcases hval with hval | hval
      · simp only [calcValue, hval]
        decide
      · simp only [calcValue, hval]
        decide
  | two j l r ihl ihr =>
    obtain ⟨l', hl', hl⟩ := ihl he.1 true
    obtain ⟨r', hr', hr⟩ := ihr he.2 true
    have hlmod := (Logical.withoutMod he.1).calcValue_ne henv
    have hrmod := (Logical.withoutMod he.2).calcValue_ne henv
    have hop := op_ofBool_unit j v hlmod hrmod
    have hnot := congrArg Tristate.not hop
    have hbool (c : Bool) : (Tristate.ofBool (c == true)).not = Tristate.ofBool (c == false) := by
      cases c <;> rfl
    cases v
    all_goals
      simp only [Junction.symbol] at hl' hr'
      simp only [transCompare, Junction.symbol, if_true, if_neg hno, hl', hr',
        Option.bind_some, Option.map_some]
      refine ⟨_, rfl, ?_⟩
      cases equal
    · simp only [Bool.false_eq_true, if_false, calcValue, hl, hr]
      exact hnot.trans (hbool _)
    · simp only [if_true, calcValue, hl, hr]
      exact hop
    · simp only [Bool.false_eq_true, if_false, calcValue, hl, hr]
      exact hnot.trans (hbool _)
    · simp only [if_true, calcValue, hl, hr]
      exact hop

end Expr

end MotionPie.Support.Kconfig
