import MotionPie.Support.Kconfig.CalcSymbol

/-!
# What the user sets

A value that is set is checked against what is visible and in range, and then all symbols are to be
worked out again. The front ends ask for a symbol before they set it, as `menu_is_visible` does.
-/

namespace MotionPie.Support.Kconfig

open Base

/-- `sym_clear_all_valid`, `support/kconfig/symbol.c` lines 442–452. The constants are not in the
table of the symbols. -/
def symClearAllValid : Calc PUnit :=
  modify fun μ s ↦ if s = .yes ∨ s = .mod ∨ s = .no then μ s else { μ s with valid := false }

/-- `sym_tristate_within_range`, `support/kconfig/symbol.c` lines 474–491. -/
def symTristateWithinRange (cfg : Config) (s : Symbol) (val : Tristate) : Calc Bool := do
  let c ← cell s
  if c.visible = .no then pure false
  else if symGetType s ≠ .boolean ∧ symGetType s ≠ .tristate then pure false
  else if symGetType s = .boolean ∧ val = .mod then pure false
  else if c.visible ≤ c.revDep then pure false
  else if (cfg s).isChoiceValue ∧ c.visible = .yes then pure (val = .yes)
  else pure (c.revDep ≤ val ∧ val ≤ c.visible)

/-- A choice value that is set to `y` is what the user has chosen, and no visible value of the
choice is new any more, `support/kconfig/symbol.c` lines 508–521. -/
def setChosen (cfg : Config) (s : Symbol) : Calc PUnit :=
  match (cfg s).choice with
  | none => pure ⟨⟩
  | some choice => do
    store choice fun c ↦ { c with user := { c.user with has := true, val := .sym s } }
    forM (cfg choice).values fun m ↦ do
      let c ← cell m
      doIf (c.visible ≠ .no) <| store m fun c ↦ { c with user := { c.user with has := true } }

/-- `sym_set_tristate_value`, `support/kconfig/symbol.c` lines 493–528. -/
def symSetTristateValue (cfg : Config) (s : Symbol) (val : Tristate) : Calc Bool := do
  let old ← cell s
  let within ← symTristateWithinRange cfg s val
  if old.tri ≠ val ∧ ¬ within then pure false
  else do
    store s fun c ↦ { c with user := { c.user with has := true } }
    doIf (val = .yes) <| setChosen cfg s
    store s fun c ↦ { c with user := { c.user with tri := val } }
    doIf (old.tri ≠ val) symClearAllValid
    pure true

/-- The test of a number in base ten, `support/kconfig/symbol.c` lines 562–573. -/
def intValid : Bytes → Bool
  | 48 :: s => s = []
  | s => s ≠ [] ∧ s.all isDigit

/-- The text without `0x`, `support/kconfig/symbol.c` lines 575–576. -/
def dropHexPrefix (str : Bytes) : Bytes := dropRadix 16 str

/-- `isxdigit`. -/
def isXdigit (b : UInt8) : Bool := (digitOf b).any (· < 16)

/-- `sym_string_valid`, `support/kconfig/symbol.c` lines 553–594. -/
def symStringValid (s : Symbol) (str : Bytes) : Bool :=
  match s.type with
  | .string => true
  | .int => intValid (if str.head? = some 45 then str.tail else str)
  | .hex => dropHexPrefix str ≠ [] ∧ (dropHexPrefix str).all isXdigit
  | .boolean | .tristate => (Base.str "yYmMnN").any fun b ↦ str.head? = some b
  | _ => false

section

variable (cfg : Config) (again : Symbol → Calc PUnit)

/-- `sym_string_within_range` for the types with a text, `support/kconfig/symbol.c` lines
601–623. -/
def symStringWithinRange (s : Symbol) (str : Bytes) : Calc Bool :=
  if ¬ symStringValid s str then pure false
  else
    match baseOf s.type with
    | none => pure true
    | some base => do
      let prop ← symGetRangeProp cfg again s
      match prop with
      | none => pure true
      | some (range, _) => do
        let low ← symGetRangeVal again range.1 base
        if strtoll base str ≥ low then do
          let high ← symGetRangeVal again range.2 base
          pure (strtoll base str ≤ high)
        else pure false

/-- What is kept of a number in base sixteen, `support/kconfig/symbol.c` lines 669–673. -/
def withHexPrefix (s : Symbol) (newval : Bytes) : Bytes :=
  if s.type = .hex ∧ dropHexPrefix newval = newval then Base.str "0x" ++ newval else newval

/-- `sym_set_string_value` for the types with a text, `support/kconfig/symbol.c` lines 659–685. -/
def symSetText (s : Symbol) (newval : Bytes) : Calc Bool := do
  let within ← symStringWithinRange cfg again s newval
  if ¬ within then pure false
  else do
    store s fun c ↦ { c with user := { c.user with has := true } }
    let c ← cell s
    if withHexPrefix s newval = newval ∧ c.user.val = .text newval then pure true
    else do
      store s fun c ↦ { c with user := { c.user with val := .text (withHexPrefix s newval) } }
      symClearAllValid
      pure true

/-- The value that a text begins with, `support/kconfig/symbol.c` lines 646–652. -/
def tristateOf (newval : Bytes) : Option Tristate :=
  if newval.head? = some 121 ∨ newval.head? = some 89 then some .yes
  else if newval.head? = some 109 ∨ newval.head? = some 77 then some .mod
  else if newval.head? = some 110 ∨ newval.head? = some 78 then some .no
  else none

/-- `sym_set_string_value`, `support/kconfig/symbol.c` lines 637–686. -/
def symSetStringValue (s : Symbol) (newval : Bytes) : Calc Bool :=
  if s.isLogical then (tristateOf newval).elim (pure false) (symSetTristateValue cfg s)
  else symSetText cfg again s newval

end

/-! ### What a front end does -/

/-- A call of a front end. -/
inductive Command
  | ask (s : Symbol)
  | set (s : Symbol) (newval : Bytes)
  | clear
  deriving DecidableEq

/-- A symbol is looked at before it is set, as `menu_is_visible` does. -/
def setValue (cfg : Config) (fuel : Nat) (s : Symbol) (newval : Bytes) : Calc Bool := do
  symCalcValue cfg fuel s
  symSetStringValue cfg (symCalcValue cfg fuel) s newval

/-- The call. -/
def Command.exec (cfg : Config) (fuel : Nat) : Command → Calc PUnit
  | ask s => symCalcValue cfg fuel s
  | set s newval => do
    let _ ← setValue cfg fuel s newval
    pure ⟨⟩
  | clear => symClearAllValid

/-- What `conf_parse` leaves: the constants have their values, `support/kconfig/symbol.c` lines
14–29, and all else is zero. -/
def parsed : Memory := fun s ↦
  let constant (t : Tristate) : Cell :=
    ⟨⟨.text t.text, t, .no, .no, .no⟩, ⟨false, .no, .null⟩, true, false⟩
  if s = .yes then constant .yes
  else if s = .mod then constant .mod
  else if s = .no then constant .no
  else ⟨⟨.null, .no, .no, .no, .no⟩, ⟨false, .no, .null⟩, false, false⟩

end MotionPie.Support.Kconfig
