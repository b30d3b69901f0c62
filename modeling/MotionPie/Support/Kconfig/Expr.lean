import MotionPie.Base.Text

/-!
# Expressions of the configuration language

The dependencies of a `Config.in` are expressions over symbols with three values. They are the
ones of `support/kconfig/expr.c`; the ranges and the lists of choice values, which have types of
their own in `enum expr_type`, are never part of a dependency.
-/

namespace MotionPie.Support.Kconfig

open Base

/-- `enum tristate`, `support/kconfig/expr.h` lines 27–29. -/
inductive Tristate
  | no
  | mod
  | yes
  deriving DecidableEq

namespace Tristate

/-- The value of the enumerator, which the macros compare and subtract. -/
def toNat : Tristate → Nat
  | no => 0
  | mod => 1
  | yes => 2

/-- `EXPR_OR`, `support/kconfig/expr.h` line 45. -/
def or (dep1 dep2 : Tristate) : Tristate := if dep1.toNat > dep2.toNat then dep1 else dep2

/-- `EXPR_AND`, `support/kconfig/expr.h` line 46. -/
def and (dep1 dep2 : Tristate) : Tristate := if dep1.toNat < dep2.toNat then dep1 else dep2

/-- `EXPR_NOT`, `support/kconfig/expr.h` line 47. -/
def not (dep : Tristate) : Tristate :=
  match 2 - dep.toNat with
  | 0 => no
  | 1 => mod
  | _ => yes

/-- The name of the constant with that value. -/
def text : Tristate → Bytes
  | no => str "n"
  | mod => str "m"
  | yes => str "y"

end Tristate

instance : LE Tristate := ⟨fun a b ↦ a.toNat ≤ b.toNat⟩

instance (a b : Tristate) : Decidable (a ≤ b) := inferInstanceAs (Decidable (a.toNat ≤ b.toNat))

namespace Tristate

theorem le_refl (a : Tristate) : a ≤ a := Nat.le_refl _

theorem le_trans {a b c : Tristate} (h : a ≤ b) (h' : b ≤ c) : a ≤ c := Nat.le_trans h h'

theorem le_antisymm {a b : Tristate} (h : a ≤ b) (h' : b ≤ a) : a = b := by
  cases a <;> cases b <;> first | rfl | exact absurd h (by decide) | exact absurd h' (by decide)

theorem le_yes (a : Tristate) : a ≤ yes := by cases a <;> decide

theorem no_le (a : Tristate) : no ≤ a := by cases a <;> decide

end Tristate

/-- The types of a node with two operands, `E_OR` and `E_AND`. -/
inductive Junction
  | or
  | and
  deriving DecidableEq

namespace Junction

/-- What a node of the type does with the values of its operands. -/
def op : Junction → Tristate → Tristate → Tristate
  | or => Tristate.or
  | and => Tristate.and

/-- The value of an operand that does not count. -/
def unit : Junction → Tristate
  | or => .no
  | and => .yes

/-- The other type. -/
def dual : Junction → Junction
  | or => and
  | and => or

@[simp] theorem dual_dual (j : Junction) : j.dual.dual = j := by cases j <;> rfl

theorem dual_ne (j : Junction) : j.dual ≠ j := by cases j <;> decide

theorem eq_dual_of_ne {j k : Junction} (h : k ≠ j) : k = j.dual := by
  cases j <;> cases k <;> first | rfl | exact absurd rfl h

instance op_associative (j : Junction) : Std.Associative j.op where
  assoc a b c := by cases j <;> cases a <;> cases b <;> cases c <;> rfl

instance op_commutative (j : Junction) : Std.Commutative j.op where
  comm a b := by cases j <;> cases a <;> cases b <;> rfl

@[simp] theorem op_unit (j : Junction) (a : Tristate) : j.op a j.unit = a := by
  cases j <;> cases a <;> rfl

@[simp] theorem unit_op (j : Junction) (a : Tristate) : j.op j.unit a = a := by
  cases j <;> cases a <;> rfl

@[simp] theorem op_dual_unit (j : Junction) (a : Tristate) :
    j.op a j.dual.unit = j.dual.unit := by
  cases j <;> cases a <;> rfl

@[simp] theorem dual_unit_op (j : Junction) (a : Tristate) :
    j.op j.dual.unit a = j.dual.unit := by
  cases j <;> cases a <;> rfl

@[simp] theorem op_self (j : Junction) (a : Tristate) : j.op a a = a := by
  cases j <;> cases a <;> rfl

theorem op_le_op (j : Junction) (c : Tristate) {a b : Tristate} (h : a ≤ b) :
    j.op c a ≤ j.op c b := by
  revert h
  cases j <;> cases a <;> cases b <;> cases c <;> decide

/-- De Morgan. -/
theorem not_op (j : Junction) (a b : Tristate) :
    (j.op a b).not = j.dual.op a.not b.not := by
  cases j <;> cases a <;> cases b <;> rfl

@[simp] theorem not_unit (j : Junction) : j.unit.not = j.dual.unit := by cases j <;> rfl

end Junction

@[simp] theorem Tristate.not_not (a : Tristate) : a.not.not = a := by cases a <;> rfl

theorem Tristate.not_ne_mod {a : Tristate} (h : a ≠ .mod) : a.not ≠ .mod := by
  cases a <;> first | decide | exact absurd rfl h

theorem Junction.op_ne_mod (j : Junction) {a b : Tristate} (ha : a ≠ .mod) (hb : b ≠ .mod) :
    j.op a b ≠ .mod := by
  cases j <;> cases a <;> cases b <;> first | decide | exact absurd rfl ha | exact absurd rfl hb

/-- `b` is what becomes of `a` when some values `m` are decided to be `y` or `n`. -/
def Tristate.Decided (a b : Tristate) : Prop := b = a ∨ a = .mod

theorem Tristate.Decided.refl (a : Tristate) : Decided a a := .inl rfl

theorem Tristate.Decided.trans {a b c : Tristate} (h : Decided a b) (h' : Decided b c) :
    Decided a c := by
  rcases h with rfl | h
  · exact h'
  · exact .inr h

/-- The operations never turn `y` and `n` around when a value `m` is decided. -/
theorem Tristate.Decided.op {a b : Tristate} (h : Decided a b) (j : Junction) (c : Tristate) :
    Decided (j.op c a) (j.op c b) := by
  rcases h with rfl | rfl
  · exact .refl _
  · revert b
    unfold Decided
    cases j <;> cases c <;> intro b <;> cases b <;> decide

/-- `enum symbol_type`, `support/kconfig/expr.h` lines 62–64. -/
inductive SymbolType
  | unknown
  | boolean
  | tristate
  | int
  | hex
  | string
  | other
  deriving DecidableEq

/-- A symbol. The expressions hold pointers; the table of `sym_lookup` has one symbol of a name
with `SYMBOL_CONST` and one without, and a choice has a symbol without a name. The type is the
one that the symbol has when the expressions are rewritten; constants have none. -/
inductive Symbol
  | const (name : Bytes)
  | config (name : Bytes) (type : SymbolType)
  | choice (index : Nat) (type : SymbolType)
  deriving DecidableEq

namespace Symbol

/-- `symbol_yes`, `support/kconfig/symbol.c` lines 14–18. -/
def yes : Symbol := const (str "y")

/-- `symbol_mod`, `support/kconfig/symbol.c` lines 18–22. -/
def mod : Symbol := const (str "m")

/-- `symbol_no`, `support/kconfig/symbol.c` lines 22–26. -/
def no : Symbol := const (str "n")

/-- `sym->type`. -/
def type : Symbol → SymbolType
  | const _ => .unknown
  | config _ type => type
  | choice _ type => type

/-- `sym->flags & SYMBOL_CONST`. -/
def isConst : Symbol → Bool
  | const _ => true
  | _ => false

/-- `sym->name`. -/
def name : Symbol → Option Bytes
  | const name => some name
  | config name _ => some name
  | choice _ _ => none

end Symbol

/-- The constant that stands where an operand was taken out. -/
def Junction.symbol : Junction → Symbol
  | .or => .no
  | .and => .yes

theorem Junction.symbol_ne_dual (j : Junction) : j.symbol ≠ j.dual.symbol := by
  cases j <;> decide

/-- `struct expr`, `support/kconfig/expr.h` lines 40–43, without the node types that are no part
of a dependency. `equal` tells `E_EQUAL` from `E_UNEQUAL`. -/
inductive Expr
  | symbol (sym : Symbol)
  | not (left : Expr)
  | comp (equal : Bool) (left right : Symbol)
  | two (type : Junction) (left right : Expr)
  deriving DecidableEq

/-- The values of the symbols, `sym->curr.tri` and `sym_get_string_value(sym)`, after
`sym_calc_value`. A symbol that is no constant has any value its type can have. -/
structure Env where
  tri : Symbol → Tristate
  str : Symbol → Bytes
  tri_yes : tri .yes = .yes
  tri_mod : tri .mod = .mod
  tri_no : tri .no = .no
  str_const : ∀ name, str (.const name) = name
  tri_boolean : ∀ sym : Symbol, sym.type = .boolean → tri sym ≠ .mod
  str_text : ∀ sym : Symbol, sym.type = .boolean ∨ sym.type = .tristate →
    str sym = (tri sym).text

attribute [simp] Env.tri_yes Env.tri_mod Env.tri_no Env.str_const

@[simp] theorem Env.tri_symbol (env : Env) (j : Junction) : env.tri j.symbol = j.unit := by
  cases j
  · exact env.tri_no
  · exact env.tri_yes

@[simp] theorem Env.str_yes (env : Env) : env.str .yes = Tristate.yes.text := env.str_const _

@[simp] theorem Env.str_mod (env : Env) : env.str .mod = Tristate.mod.text := env.str_const _

@[simp] theorem Env.str_no (env : Env) : env.str .no = Tristate.no.text := env.str_const _

@[simp] theorem Tristate.text_inj {a b : Tristate} : a.text = b.text ↔ a = b := by
  cases a <;> cases b <;> decide

/-- The value of a comparison. -/
def Tristate.ofBool (b : Bool) : Tristate := if b then .yes else .no

@[simp] theorem Tristate.not_ofBool (b : Bool) : (ofBool b).not = ofBool (!b) := by
  cases b <;> rfl

theorem Tristate.ofBool_ne_mod (b : Bool) : ofBool b ≠ .mod := by cases b <;> decide

namespace Expr

/-- `expr_calc_value`, `support/kconfig/expr.c` lines 938–977. -/
def calcValue (env : Env) : Expr → Tristate
  | symbol sym => env.tri sym
  | not e => (e.calcValue env).not
  | comp true s t => Tristate.ofBool (env.str s = env.str t)
  | comp false s t => Tristate.ofBool (env.str s ≠ env.str t)
  | two j l r => j.op (l.calcValue env) (r.calcValue env)

/-- A comparison of a symbol of type boolean or tristate with the constant of a value. -/
theorem calcValue_comp_text (env : Env) (b : Bool) {s : Symbol} (v : Tristate)
    (hs : s.type = .boolean ∨ s.type = .tristate) :
    (comp b s (.const v.text)).calcValue env = Tristate.ofBool ((env.tri s = v) == b) := by
  cases b <;> simp [calcValue, env.str_text s hs]

theorem calcValue_comp_yes (env : Env) (b : Bool) {s : Symbol}
    (hs : s.type = .boolean ∨ s.type = .tristate) :
    (comp b s .yes).calcValue env = Tristate.ofBool ((env.tri s = .yes) == b) :=
  calcValue_comp_text env b .yes hs

theorem calcValue_comp_mod (env : Env) (b : Bool) {s : Symbol}
    (hs : s.type = .boolean ∨ s.type = .tristate) :
    (comp b s .mod).calcValue env = Tristate.ofBool ((env.tri s = .mod) == b) :=
  calcValue_comp_text env b .mod hs

theorem calcValue_comp_no (env : Env) (b : Bool) {s : Symbol}
    (hs : s.type = .boolean ∨ s.type = .tristate) :
    (comp b s .no).calcValue env = Tristate.ofBool ((env.tri s = .no) == b) :=
  calcValue_comp_text env b .no hs

/-- The number of nodes. -/
def size : Expr → Nat
  | symbol _ => 1
  | not e => e.size + 1
  | comp _ _ _ => 1
  | two _ l r => l.size + r.size + 1

theorem size_pos (e : Expr) : 0 < e.size := by cases e <;> simp [size]

/-- `enum expr_type`, `support/kconfig/expr.h` lines 31–33, as far as it occurs here. -/
inductive Kind
  | or
  | and
  | not
  | equal
  | unequal
  | symbol
  deriving DecidableEq

/-- `e->type`. -/
def kind : Expr → Kind
  | symbol _ => .symbol
  | not _ => .not
  | comp true _ _ => .equal
  | comp false _ _ => .unequal
  | two .or _ _ => .or
  | two .and _ _ => .and

/-- The type of a node with two operands. -/
def junction? : Expr → Option Junction
  | two j _ _ => some j
  | _ => none

theorem exists_of_junction? {e : Expr} {j : Junction} (h : e.junction? = some j) :
    ∃ l r, e = two j l r := by
  cases e with
  | two k l r =>
    obtain rfl : k = j := Option.some.inj h
    exact ⟨l, r, rfl⟩
  | _ => cases h

/-- What holds of every expression that is no node of the type, and of a node of the type when it
holds of its operands, holds of all. -/
theorem operand_induction (j : Junction) {motive : Expr → Prop}
    (leaf : ∀ e : Expr, e.junction? ≠ some j → motive e)
    (node : ∀ l r, motive l → motive r → motive (two j l r)) (e : Expr) : motive e := by
  induction e with
  | symbol s => exact leaf _ (by simp [junction?])
  | not e ih => exact leaf _ (by simp [junction?])
  | comp b s t => exact leaf _ (by simp [junction?])
  | two k l r ihl ihr =>
    by_cases hk : k = j
    · exact hk ▸ node l r ihl ihr
    · exact leaf _ (by simpa [junction?] using hk)

end Expr

end MotionPie.Support.Kconfig
