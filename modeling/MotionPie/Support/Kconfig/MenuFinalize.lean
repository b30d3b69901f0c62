import MotionPie.Support.Kconfig.Menu

/-!
# The pass over the menus

`menu_finalize` goes from the main menu down. What it writes into an entry depends on the entry
and on what it has written into the menu above, so it is modelled along the way that leads from
the main menu to an entry. A condition that is a null pointer always holds.
-/

namespace MotionPie.Support.Kconfig

open Kconfig.Expr

variable {env : Env}

/-- The value of a condition; `expr_calc_value` has `yes` for a null pointer. -/
def condValue (env : Env) (c : Option Expr) : Tristate := c.elim .yes (calcValue env)

/-- `expr_alloc_and`, `support/kconfig/expr.c` lines 48–53. -/
def allocAnd : Option Expr → Option Expr → Option Expr
  | none, e2 => e2
  | some e1, some e2 => some (two .and e1 e2)
  | some e1, none => some e1

/-- What `menu_finalize` reads of an entry: the symbol, whether it is a choice, the dependency,
the condition of the prompt, if there is one, and those of the other properties. -/
structure Entry where
  sym : Option Symbol
  choice : Bool
  dep : Option Expr
  prompt : Option (Option Expr)
  props : List (Option Expr)

/-- A condition under one that holds for all of the menu, `support/kconfig/menu.c` lines 312–314
and 323–325. -/
def restrict (parent cond : Option Expr) : Option Expr :=
  (allocAnd parent (cond.map transform)).map eliminateDups

/-- The condition of a property, `support/kconfig/menu.c` lines 323–328. -/
def finalizeProp (sym : Option Symbol) (basedep cond : Option Expr) : Option Expr :=
  let dep := restrict basedep cond
  if sym.any fun s ↦ s.type ≠ .tristate then dep.map transBool else dep

/-- The body of the loop over the entries of a menu, `support/kconfig/menu.c` lines 311–335. -/
def finalizeEntry (parentdep : Option Expr) (m : Entry) : Entry :=
  let basedep := restrict parentdep m.dep
  { m with
    dep := basedep
    prompt := m.prompt.map (finalizeProp m.sym basedep)
    props := m.props.map (finalizeProp m.sym basedep) }

/-- The condition that an entry has for those below it, `support/kconfig/menu.c` lines
305–309. -/
def Entry.parentDep (m : Entry) : Option Expr :=
  if m.choice then m.sym.map symbol else m.prompt.getD m.dep

/-- The entries on the way from a menu to an entry below it. -/
def finalizePath (parentdep : Option Expr) : List Entry → List Entry
  | [] => []
  | m :: ms => finalizeEntry parentdep m :: finalizePath (finalizeEntry parentdep m).parentDep ms

/-! ### What the conditions are to be -/

/-- The values of the conditions of an entry. -/
structure EntryValue where
  dep : Tristate
  prompt : Option Tristate
  props : List Tristate

/-- The values that the conditions have as they are written. -/
def Entry.value (env : Env) (m : Entry) : EntryValue :=
  ⟨condValue env m.dep, m.prompt.map (condValue env), m.props.map (condValue env)⟩

/-- An entry has its dependency under the condition of the menu above it, and each of its
properties has its own condition under that dependency. -/
def EntryValue.under (c : Tristate) (v : EntryValue) : EntryValue :=
  ⟨c.and v.dep, v.prompt.map (c.and v.dep).and, v.props.map (c.and v.dep).and⟩

/-- What an entry passes on: a choice its own value, the others the condition of the prompt, or
the dependency when there is no prompt. -/
def Entry.passes (env : Env) (m : Entry) (v : EntryValue) : Tristate :=
  if m.choice then m.sym.elim .yes env.tri else v.prompt.getD v.dep

/-- The values of the conditions on the way to an entry. -/
def pathValues (env : Env) (c : Tristate) : List Entry → List EntryValue
  | [] => []
  | m :: ms =>
    (m.value env).under c :: pathValues env (m.passes env ((m.value env).under c)) ms

/-! ### The pass gives the conditions these values -/

/-- A condition meets a law. -/
def CondHolds (P : Expr → Prop) (c : Option Expr) : Prop := ∀ e ∈ c, P e

theorem condHolds_allocAnd {P : Expr → Prop} (hP : Leafwise P) {c d : Option Expr}
    (hc : CondHolds P c) (hd : CondHolds P d) : CondHolds P (allocAnd c d) := by
  cases c with
  | none => exact hd
  | some e =>
    cases d with
    | none => exact hc
    | some e' =>
      rintro _ ⟨⟩
      exact (hP.two _ _ _).mpr ⟨hc e rfl, hd e' rfl⟩

theorem CondHolds.map {P : Expr → Prop} {f : Expr → Expr} {c : Option Expr} (h : CondHolds P c)
    (hf : ∀ e, P e → P (f e)) : CondHolds P (c.map f) := by
  cases c with
  | none => exact fun _ he ↦ absurd he (by simp)
  | some a =>
    rintro _ ⟨⟩
    exact hf a (h a rfl)

theorem Leafwise.transBool {P : Expr → Prop} (hP : Leafwise P) {e : Expr} (he : P e) :
    P e.transBool := by
  induction e with
  | symbol s => exact he
  | not e ih => exact (hP.not _).mpr (ih ((hP.not _).mp he))
  | comp b s t =>
    cases b with
    | true => exact he
    | false =>
      rw [Expr.transBool]
      split_ifs with h
      · exact hP.symbol s (.inr h.1)
      · exact he
  | two j l r ihl ihr =>
    obtain ⟨hl, hr⟩ := (hP.two _ _ _).mp he
    exact (hP.two _ _ _).mpr ⟨ihl hl, ihr hr⟩

theorem condHolds_restrict {P : Expr → Prop} (hP : Leafwise P) {parent c : Option Expr}
    (hparent : CondHolds P parent) (hc : CondHolds P c) : CondHolds P (restrict parent c) :=
  (condHolds_allocAnd hP hparent (hc.map fun _ ↦ hP.transform)).map fun _ ↦ hP.eliminateDups

theorem condHolds_finalizeProp {P : Expr → Prop} (hP : Leafwise P) {sym : Option Symbol}
    {base c : Option Expr} (hbase : CondHolds P base) (hc : CondHolds P c) :
    CondHolds P (finalizeProp sym base c) := by
  simp only [finalizeProp]
  split_ifs
  · exact (condHolds_restrict hP hbase hc).map fun _ ↦ Leafwise.transBool hP
  · exact condHolds_restrict hP hbase hc

theorem condValue_allocAnd (env : Env) (c d : Option Expr) :
    condValue env (allocAnd c d) = (condValue env c).and (condValue env d) := by
  have hleft (a : Tristate) : Tristate.yes.and a = a := by cases a <;> rfl
  have hright (a : Tristate) : a.and .yes = a := by cases a <;> rfl
  cases c with
  | none => simp [allocAnd, condValue, hleft]
  | some e =>
    cases d with
    | none => simp [allocAnd, condValue, hright]
    | some e' => rfl

theorem condValue_restrict (henv : env.TwoValued) {parent c : Option Expr}
    (hparent : CondHolds WithoutMod parent) (hc : CondHolds WithoutMod c) :
    condValue env (restrict parent c) = (condValue env parent).and (condValue env c) := by
  have hand := condHolds_allocAnd leafwise_withoutMod hparent
    (hc.map fun _ ↦ leafwise_withoutMod.transform)
  have hdups (d : Option Expr) (hd : CondHolds WithoutMod d) :
      condValue env (d.map eliminateDups) = condValue env d := by
    cases d with
    | none => rfl
    | some e => exact calcValue_eliminateDups (hd e rfl) henv
  have htrans : condValue env (c.map transform) = condValue env c := by
    cases c with
    | none => rfl
    | some e => exact (isNormalForm_transform e).calcValue env
  rw [restrict, hdups _ hand, condValue_allocAnd, htrans]

theorem condValue_finalizeProp (henv : env.TwoValued) (sym : Option Symbol)
    {base c : Option Expr} (hbase : CondHolds WithoutMod base) (hc : CondHolds WithoutMod c) :
    condValue env (finalizeProp sym base c) = (condValue env base).and (condValue env c) := by
  rw [← condValue_restrict henv hbase hc]
  simp only [finalizeProp]
  split_ifs
  · cases restrict base c with
    | none => rfl
    | some e => exact calcValue_transBool henv e
  · rfl

/-- The conditions of an entry are written without `m`. -/
structure Entry.WithoutMod (m : Entry) : Prop where
  dep : CondHolds Expr.WithoutMod m.dep
  prompt : ∀ c ∈ m.prompt, CondHolds Expr.WithoutMod c
  props : ∀ c ∈ m.props, CondHolds Expr.WithoutMod c
  sym : ∀ s ∈ m.sym, s ≠ .mod

section Step

variable {parent : Option Expr} {m : Entry}

/-- What one step writes has the values it is to have. -/
theorem value_finalizeEntry (henv : env.TwoValued) (hparent : CondHolds WithoutMod parent)
    (hm : m.WithoutMod) :
    (finalizeEntry parent m).value env = (m.value env).under (condValue env parent) := by
  have hbase := condHolds_restrict leafwise_withoutMod hparent hm.dep
  have hdep := condValue_restrict henv hparent hm.dep
  have hprop (c : Option Expr) (hc : CondHolds Expr.WithoutMod c) :
      condValue env (finalizeProp m.sym (restrict parent m.dep) c) =
        ((condValue env parent).and (condValue env m.dep)).and (condValue env c) := by
    rw [condValue_finalizeProp henv m.sym hbase hc, hdep]
  simp only [Entry.value, finalizeEntry, EntryValue.under, hdep, Option.map_map, List.map_map,
    EntryValue.mk.injEq, true_and]
  refine ⟨?_, List.map_congr_left fun c hc ↦ hprop c (hm.props c hc)⟩
  cases hp : m.prompt with
  | none => rfl
  | some c => exact congrArg some (hprop c (hm.prompt c hp))

/-- What it passes on is written without `m`, and has the value that it is to have. -/
theorem parentDep_finalizeEntry (henv : env.TwoValued) (hparent : CondHolds WithoutMod parent)
    (hm : m.WithoutMod) :
    CondHolds WithoutMod (finalizeEntry parent m).parentDep ∧
      condValue env (finalizeEntry parent m).parentDep =
        m.passes env ((m.value env).under (condValue env parent)) := by
  have hvalue := value_finalizeEntry henv hparent hm
  have hbase := condHolds_restrict leafwise_withoutMod hparent hm.dep
  simp only [Entry.parentDep, Entry.passes, ← hvalue]
  change CondHolds WithoutMod (if m.choice = true then m.sym.map symbol else _) ∧
    condValue env (if m.choice = true then m.sym.map symbol else _) = _
  split_ifs
  · cases hs : m.sym with
    | none => exact ⟨fun _ he ↦ absurd he (by simp), rfl⟩
    | some s =>
      refine ⟨?_, rfl⟩
      rintro _ ⟨⟩
      exact hm.sym s hs
  · have hprompt : (finalizeEntry parent m).prompt =
        m.prompt.map (finalizeProp m.sym (restrict parent m.dep)) := rfl
    cases hp : m.prompt with
    | none =>
      rw [hprompt, hp]
      simp only [Entry.value, hprompt, hp, Option.map_none, Option.getD_none]
      exact ⟨hbase, trivial⟩
    | some c =>
      rw [hprompt, hp]
      simp only [Entry.value, hprompt, hp, Option.map_some, Option.getD_some]
      exact ⟨condHolds_finalizeProp leafwise_withoutMod hbase (hm.prompt c hp), trivial⟩

end Step

/-- On every way from the main menu to an entry the pass gives all conditions the value that they
are to have: the condition itself together with those of the menus that the way leads through. -/
theorem value_finalizePath (henv : env.TwoValued) {parent : Option Expr} {ms : List Entry}
    (hparent : CondHolds WithoutMod parent) (hms : ∀ m ∈ ms, m.WithoutMod) :
    (finalizePath parent ms).map (Entry.value env) =
      pathValues env (condValue env parent) ms := by
  induction ms generalizing parent with
  | nil => rfl
  | cons m ms ih =>
    obtain ⟨hm, hms⟩ := List.forall_mem_cons.mp hms
    obtain ⟨hpass, hvalue⟩ := parentDep_finalizeEntry henv hparent hm
    rw [finalizePath, List.map_cons, ih hpass hms, value_finalizeEntry henv hparent hm, hvalue,
      pathValues]

/-- A menu that is shown when the tristate symbol `A` is set, and in it a boolean symbol that is
asked for when `A` is `y`. -/
def exampleMenu (a : Symbol) : List Entry :=
  [⟨none, false, none, some (some (symbol a)), []⟩,
    ⟨some (.config (Base.str "B") .boolean), false, some (comp true a .yes), some none, []⟩]

theorem exampleMenu_value :
    let a := Symbol.config (Base.str "A") .tristate
    let env := oneTristate (Base.str "A") .yes
    (finalizePath none (exampleMenu a)).map (Entry.value env) =
      pathValues env .yes (exampleMenu a) := by
  intro a env
  have henv : env.TwoValued := by
    intro s hs
    simp only [env, oneTristate]
    split_ifs <;> simp_all
  have hnone : CondHolds WithoutMod none := fun e he ↦ absurd he (by simp)
  refine value_finalizePath henv hnone fun m hm ↦ ?_
  simp only [exampleMenu, List.mem_cons, List.not_mem_nil, or_false] at hm
  rcases hm with rfl | rfl <;> constructor <;> simp [a, CondHolds, Expr.WithoutMod, Symbol.mod]

/-! ### Which entries go below a symbol -/

/-- `expr_trans_compare`, `support/kconfig/expr.c` lines 877–936. -/
def transCompareCond (sym : Symbol) (c : Option Expr) (equal : Bool) : Option Expr :=
  c.elim (some (if equal then symbol sym else not (symbol sym))) fun e ↦
    e.transCompare sym equal

/-- A condition is compared with `n`, `support/kconfig/menu.c` lines 340–341 and 349–350. -/
def holdsTest (c : Option Expr) : Option Expr :=
  (transCompareCond .no c false).map fun e ↦ e.transform.eliminateDups

/-- An entry with the condition `dep` goes below the symbol before it, whose prompt has the
condition `basedep`, `support/kconfig/menu.c` lines 344–357. -/
def goesBelow (sym : Symbol) (basedep dep : Option Expr) : Bool :=
  dep.any fun d ↦
    d.containsSymbol sym && (d.dependsSymbol sym ||
      (holdsTest dep).any fun d ↦ (holdsTest basedep).any fun b ↦
        (eliminateEq d b).2 = symbol .yes)

/-- The test says whether the condition holds. -/
theorem exists_holdsTest (henv : env.TwoValued) {c : Option Expr} (hc : CondHolds Logical c) :
    ∃ e, holdsTest c = some e ∧
      e.calcValue env = Tristate.ofBool (condValue env c ≠ .no) := by
  have hdone (e : Expr) (he : e.calcValue env = Tristate.ofBool (condValue env c ≠ .no)) :
      e.transform.eliminateDups.calcValue env = Tristate.ofBool (condValue env c ≠ .no) := by
    have htrans := (isNormalForm_transform e).calcValue env
    have hdups := (eliminated_eliminateDups e.transform).decided env
    rw [htrans, he] at hdups
    exact hdups.resolve_right (Tristate.ofBool_ne_mod _)
  cases c with
  | none => exact ⟨_, rfl, hdone _ (by simp [calcValue, condValue, Tristate.ofBool]; rfl)⟩
  | some e =>
    obtain ⟨r, hr, hval⟩ := exists_transCompare henv (hc e rfl) .or false
    refine ⟨_, congrArg (Option.map _) hr, hdone r ?_⟩
    rw [hval]
    by_cases h : e.calcValue env = .no <;> simp [condValue, Junction.unit, h]

end MotionPie.Support.Kconfig
