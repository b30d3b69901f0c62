import MotionPie.Base.Ensures
import MotionPie.Base.Strtoll
import MotionPie.Support.Kconfig.Expr

/-!
# The values of the symbols

`sym_calc_value` works a value out when it is asked for, once: the flag `SYMBOL_VALID` says that a
symbol has its value, or is about to get it. What is left out is what has no part in the values:
the warnings, the flags for what has changed, and `SYMBOL_NEED_SET_CHOICE_VALUES`, which only
`conf_set_all_new_symbols` sets. No `Config.in` has `option modules`, so `modules_sym` is the
constant `n` here and `modules_val` is `no`.
-/

namespace MotionPie.Support.Kconfig

open Base

/-- What the pointer `val` of a `struct symbol_value` points to. -/
inductive Val
  | null
  | text (s : Bytes)
  | sym (s : Symbol)
  deriving DecidableEq

/-- The properties and the dependencies of a symbol, as `menu_finalize` leaves them. The list
`members` is there for a choice, `choice` for a choice value. -/
structure Decl where
  prompts : List (Option Expr)
  defaults : List (Expr × Option Expr)
  ranges : List ((Symbol × Symbol) × Option Expr)
  members : Option (List Symbol)
  choice : Option Symbol
  auto : Bool
  dirDep : Option Expr
  revDep : Option Expr
  deriving DecidableEq

/-- What is worked out for a symbol: `curr`, `visible`, `dir_dep.tri` and `rev_dep.tri`. -/
structure Result where
  val : Val
  tri : Tristate
  visible : Tristate
  dirDep : Tristate
  revDep : Tristate
  deriving DecidableEq

/-- `def[S_DEF_USER]`, with the flag `SYMBOL_DEF_USER`. -/
structure Setting where
  has : Bool
  tri : Tristate
  val : Val
  deriving DecidableEq

/-- The rest of a `struct symbol`, `support/kconfig/expr.h` lines 75–86. -/
structure Cell extends Result where
  user : Setting
  valid : Bool
  write : Bool
  deriving DecidableEq

/-- All symbols. -/
abbrev Memory := Symbol → Cell

/-- The declarations of all symbols. -/
abbrev Config := Symbol → Decl

/-- Code that works on the symbols. It fails where the program follows a null pointer or reads
one symbol as a text, and when the calls inside each other are more than the fuel. -/
abbrev Calc := StateT Memory Option

/-- The fields of a symbol. -/
def cell (s : Symbol) : Calc Cell := (fun μ ↦ μ s) <$> get

/-- The fields of a symbol are set. -/
def store (s : Symbol) (f : Cell → Cell) : Calc PUnit :=
  modify fun μ ↦ Function.update μ s (f (μ s))

/-- Something is done under a condition only. -/
def doIf (p : Prop) [Decidable p] (m : Calc PUnit) : Calc PUnit := if p then m else pure ⟨⟩

/-- The name of a symbol as a pointer. -/
def Symbol.nameVal (s : Symbol) : Val := s.name.elim .null .text

/-- `sym_is_choice`. -/
def Decl.isChoice (d : Decl) : Bool := d.members.isSome

/-- `sym_is_choice_value`. -/
def Decl.isChoiceValue (d : Decl) : Bool := d.choice.isSome

/-- The symbols of the list of a choice. -/
def Decl.values (d : Decl) : List Symbol := d.members.getD []

/-- `sym_get_type`, `support/kconfig/symbol.c` lines 63–74. -/
def symGetType (s : Symbol) : SymbolType := if s.type = .tristate then .boolean else s.type

/-- A symbol of type boolean or tristate. -/
def Symbol.isLogical (s : Symbol) : Bool := s.type = .boolean || s.type = .tristate

/-- A symbol with a text. -/
def Symbol.isText (s : Symbol) : Bool := s.type = .int || s.type = .hex || s.type = .string

/-- What a pointer to a text points to. -/
def textOf : Val → Calc Bytes
  | .text t => pure t
  | _ => failure

/-- `sym_get_string_value`, `support/kconfig/symbol.c` lines 760–782. Without modules `m` is written
as `n`. -/
def symGetStringValue (s : Symbol) : Calc Bytes := do
  let c ← cell s
  if s.isLogical then pure (if c.tri = .mod then str "n" else c.tri.text)
  else textOf c.val

section Calculation

variable (cfg : Config) (again : Symbol → Calc PUnit)

/-- `expr_calc_value`, `support/kconfig/expr.c` lines 938–977, where `sym_calc_value` is
`again`. -/
def exprCalcValue : Expr → Calc Tristate
  | .symbol s => do
    again s
    let c ← cell s
    pure c.tri
  | .two j l r => do
    let val1 ← exprCalcValue l
    let val2 ← exprCalcValue r
    pure (j.op val1 val2)
  | .not e => do
    let val1 ← exprCalcValue e
    pure val1.not
  | .comp equal s t => do
    again s
    again t
    let str1 ← symGetStringValue s
    let str2 ← symGetStringValue t
    pure (Tristate.ofBool (decide (str1 = str2) == equal))

/-- `expr_calc_value`, for a pointer that may be null. -/
def condCalcValue : Option Expr → Calc Tristate
  | none => pure .yes
  | some e => exprCalcValue again e

/-- The first property whose condition is not `n`, with the value of that: the loops of
`sym_get_default_prop` and of `sym_get_range_prop`, `support/kconfig/symbol.c` lines 119–123 and
131–135. -/
def firstVisible {α : Type} : List (α × Option Expr) → Calc (Option (α × Tristate))
  | [] => pure none
  | p :: ps => do
    let tri ← condCalcValue again p.2
    if tri ≠ .no then pure (some (p.1, tri)) else firstVisible ps

/-- `sym_get_default_prop`, `support/kconfig/symbol.c` lines 115–125. -/
def symGetDefaultProp (s : Symbol) : Calc (Option (Expr × Tristate)) :=
  firstVisible again (cfg s).defaults

/-- `sym_get_range_prop`, `support/kconfig/symbol.c` lines 127–137. -/
def symGetRangeProp (s : Symbol) : Calc (Option ((Symbol × Symbol) × Tristate)) :=
  firstVisible again (cfg s).ranges

/-- The base of the numbers of a type. -/
def baseOf : SymbolType → Option Nat
  | .int => some 10
  | .hex => some 16
  | _ => none

/-- `sym_get_range_val`, `support/kconfig/symbol.c` lines 139–153. -/
def symGetRangeVal (s : Symbol) (base : Nat) : Calc Int := do
  again s
  let c ← cell s
  let t ← textOf c.val
  pure (strtoll ((baseOf s.type).getD base) t)

/-- What `sprintf` writes, `support/kconfig/symbol.c` lines 182–185. -/
def rangeText (type : SymbolType) (val : Int) : Bytes :=
  if type = .int then showInt val else str "0x" ++ showHex (toUnsigned64 val)

/-- `sym_validate_range`, `support/kconfig/symbol.c` lines 155–187. -/
def symValidateRange (s : Symbol) : Calc PUnit :=
  match baseOf s.type with
  | none => pure ⟨⟩
  | some base => do
    let prop ← symGetRangeProp cfg again s
    match prop with
    | none => pure ⟨⟩
    | some (range, _) => do
      let c ← cell s
      let t ← textOf c.val
      let low ← symGetRangeVal again range.1 base
      if strtoll base t ≥ low then do
        let high ← symGetRangeVal again range.2 base
        doIf (high < strtoll base t) <|
          store s fun c ↦ { c with val := .text (rangeText s.type high) }
      else store s fun c ↦ { c with val := .text (rangeText s.type low) }

/-- A value `m` counts as `y`. -/
def Tristate.toYes (t : Tristate) : Tristate := if t = .mod then .yes else t

/-- The loop over the prompts, `support/kconfig/symbol.c` lines 196–199. -/
def promptVisibility : Tristate → List (Option Expr) → Calc Tristate
  | tri, [] => pure tri
  | tri, c :: cs => do
    let v ← condCalcValue again c
    promptVisibility (tri.or v) cs

/-- The value of `rev_dep`, `support/kconfig/symbol.c` lines 218–222. -/
def revDepValue (s : Symbol) : Calc Tristate :=
  match (cfg s).revDep with
  | none => pure .no
  | some e => do
    let tri ← exprCalcValue again e
    pure (if tri = .mod ∧ symGetType s = .boolean then .yes else tri)

/-- `sym_calc_visibility`, `support/kconfig/symbol.c` lines 189–227. -/
def symCalcVisibility (s : Symbol) : Calc PUnit := do
  let tri ← promptVisibility again .no (cfg s).prompts
  store s fun c ↦ { c with visible := tri.toYes }
  doIf (¬ (cfg s).isChoiceValue) do
    let dirDep ← condCalcValue again (cfg s).dirDep
    store s fun c ↦ { c with dirDep := dirDep.toYes }
    let revDep ← revDepValue cfg again s
    store s fun c ↦ { c with revDep := revDep }

/-- `prop_get_symbol`, `support/kconfig/symbol.c` lines 1311–1317. -/
def propGetSymbol : Expr → Option Symbol
  | .symbol s => some s
  | _ => none

/-- The first symbol of a list that is visible, `support/kconfig/symbol.c` lines 253–258. -/
def firstVisibleValue : List Symbol → Calc (Option Symbol)
  | [] => pure none
  | m :: ms => do
    let c ← cell m
    if c.visible ≠ .no then pure (some m) else firstVisibleValue ms

/-- The loop over the defaults of a choice, `support/kconfig/symbol.c` lines 242–249, and what
comes behind it. -/
def choiceDefault (values : List Symbol) : List (Expr × Option Expr) → Calc (Option Symbol)
  | [] => firstVisibleValue values
  | p :: ps => do
    let tri ← condCalcValue again p.2
    if tri = .no then choiceDefault values ps
    else
      match propGetSymbol p.1 with
      | none => failure
      | some d => do
        let c ← cell d
        if c.visible ≠ .no then pure (some d) else choiceDefault values ps

/-- `sym_choice_default`, `support/kconfig/symbol.c` lines 235–259. -/
def symChoiceDefault (s : Symbol) : Calc (Option Symbol) :=
  choiceDefault again (cfg s).values (cfg s).defaults

/-- The loop over the choice values, `support/kconfig/symbol.c` lines 271–275: whether the flag
`SYMBOL_DEF_USER` stays. -/
def calcValues : Bool → List Symbol → Calc Bool
  | has, [] => pure has
  | has, m :: ms => do
    symCalcVisibility cfg again m
    let c ← cell m
    calcValues (if c.visible ≠ .no then has && c.user.has else has) ms

/-- Whether what the user has chosen is visible, `support/kconfig/symbol.c` line 281. -/
def userVisible : Val → Calc Bool
  | .null => pure false
  | .text _ => failure
  | .sym d => do
    let c ← cell d
    pure (c.visible ≠ .no)

/-- `sym_calc_choice`, `support/kconfig/symbol.c` lines 261–291. -/
def symCalcChoice (s : Symbol) : Calc Val := do
  let c ← cell s
  let has ← calcValues cfg again c.user.has (cfg s).values
  store s fun c ↦ { c with user := { c.user with has := c.user.has && has } }
  let visible ← userVisible c.user.val
  if visible then pure c.user.val
  else do
    let d ← symChoiceDefault cfg again s
    match d with
    | some d => pure (.sym d)
    | none => do
      store s fun c ↦ { c with tri := .no }
      pure .null

/-- The value that a default gives, `support/kconfig/symbol.c` lines 359–366. -/
def defaultTristate (s : Symbol) : Calc Tristate :=
  if (cfg s).isChoice then pure .no
  else do
    let prop ← symGetDefaultProp cfg again s
    match prop with
    | none => pure .no
    | some (e, visible) => do
      store s fun c ↦ { c with write := true }
      let tri ← exprCalcValue again e
      pure (tri.and visible)

/-- The value of a symbol of type boolean or tristate that is no choice value which can be
chosen, `support/kconfig/symbol.c` lines 346–383. -/
def calcTristate (s : Symbol) : Calc Tristate := do
  let c ← cell s
  doIf (c.visible ≠ .no) <| store s fun c ↦ { c with write := true }
  let tri ←
    if c.visible ≠ .no ∧ c.user.has then pure (c.user.tri.and c.visible)
    else do
      doIf (c.revDep ≠ .no) <| store s fun c ↦ { c with write := true }
      defaultTristate cfg again s
  let c ← cell s
  pure (if tri.or c.revDep = .mod ∧ symGetType s = .boolean then .yes else tri.or c.revDep)

/-- The value of a symbol with a text, `support/kconfig/symbol.c` lines 388–404. -/
def calcText (s : Symbol) : Calc Val := do
  let c ← cell s
  doIf (c.visible ≠ .no) <| store s fun c ↦ { c with write := true }
  if c.visible ≠ .no ∧ c.user.has then pure c.user.val
  else do
    let prop ← symGetDefaultProp cfg again s
    match prop.bind fun p ↦ propGetSymbol p.1 with
    | none => pure (.text [])
    | some ds => do
      store s fun c ↦ { c with write := true }
      again ds
      let d ← cell ds
      pure d.val

/-- The value of a choice value that can be chosen, `support/kconfig/symbol.c` lines 343–344. -/
def calcChosen (s choice : Symbol) : Calc Tristate := do
  let c ← cell choice
  pure (if c.val = .sym s then .yes else .no)

/-- The value of a symbol of type boolean or tristate, `support/kconfig/symbol.c` lines 342–386. -/
def calcLogicalValue (s : Symbol) : Calc Tristate := do
  let c ← cell s
  match (cfg s).choice with
  | some choice => if c.visible = .yes then calcChosen s choice else calcTristate cfg again s
  | none => calcTristate cfg again s

/-- The branch for the types boolean and tristate. -/
def calcLogical (s : Symbol) : Calc PUnit := do
  store s fun c ↦ { c with val := .text (str "n"), tri := .no }
  let tri ← calcLogicalValue cfg again s
  store s fun c ↦ { c with val := .text (str "n"), tri := tri }
  doIf ((cfg s).isChoice ∧ tri = .yes) do
    let val ← symCalcChoice cfg again s
    store s fun c ↦ { c with val := val }

/-- The branch for the types with a text. -/
def calcTextual (s : Symbol) : Calc PUnit := do
  store s fun c ↦ { c with val := .text [], tri := .no }
  let val ← calcText cfg again s
  store s fun c ↦ { c with val := val, tri := .no }

/-- The choice values that are visible are written when the choice is,
`support/kconfig/symbol.c` lines 426–432. -/
def writeValue (s m : Symbol) : Calc PUnit := do
  let c ← cell s
  let d ← cell m
  doIf (c.write ∧ d.visible ≠ .no) <| store m fun d ↦ { d with write := true }

/-- The branch for the type of a symbol. -/
def calcBranch (s : Symbol) : Calc PUnit :=
  if s.isText then calcTextual cfg again s else calcLogical cfg again s

/-- What `sym_calc_value` does with a symbol that has a type, `support/kconfig/symbol.c` lines
335–433. -/
def calcTyped (s : Symbol) : Calc PUnit := do
  symCalcVisibility cfg again s
  calcBranch cfg again s
  symValidateRange cfg again s
  forM (cfg s).values (writeValue s)
  doIf (cfg s).auto <| store s fun c ↦ { c with write := false }

/-- What `sym_calc_value` does with a symbol that is not valid, `support/kconfig/symbol.c` lines
312–436. -/
def calcSymbol (s : Symbol) : Calc PUnit := do
  store s fun c ↦ { c with valid := true }
  if s.isLogical || s.isText then do
    doIf (¬ (cfg s).isChoiceValue) <| store s fun c ↦ { c with write := false }
    calcTyped cfg again s
  else store s fun c ↦ { c with val := s.nameVal, tri := .no }

end Calculation

/-- `sym_calc_value`, `support/kconfig/symbol.c` lines 293–440, for as many calls inside each other
as there is fuel. -/
def symCalcValue (cfg : Config) : Nat → Symbol → Calc PUnit
  | 0, _ => failure
  | fuel + 1, s => do
    let c ← cell s
    doIf (¬ c.valid) <| calcSymbol cfg (symCalcValue cfg fuel) s

end MotionPie.Support.Kconfig
