import Mathlib.Data.List.Find
import MotionPie.Support.Kconfig.Menu
import MotionPie.Support.Kconfig.Symbols

/-!
# What the values of the symbols are

The value of a symbol is given by those of the symbols that it depends on and by what the user has
set. Where no symbol depends on itself, these equations have exactly one solution. Nothing is said
here about when a value is worked out.
-/

namespace MotionPie.Support.Kconfig

open Base

/-- What is worked out for each symbol. -/
abbrev Results := Symbol → Result

/-- What the user has set. -/
abbrev Settings := Symbol → Setting

/-- The text that a pointer points to. -/
def Val.getText : Val → Bytes
  | .text t => t
  | _ => []

/-- The text of a symbol in a comparison. -/
def textIn (r : Results) (s : Symbol) : Bytes :=
  if s.isLogical then (r s).tri.text else (r s).val.getText

namespace Expr

/-- The value of an expression. -/
def valueIn (r : Results) : Expr → Tristate
  | symbol s => (r s).tri
  | not e => (e.valueIn r).not
  | comp equal s t => Tristate.ofBool (decide (textIn r s = textIn r t) == equal)
  | two j a b => j.op (a.valueIn r) (b.valueIn r)

/-- The symbols of an expression. -/
def symbols : Expr → List Symbol
  | symbol s => [s]
  | not e => e.symbols
  | comp _ s t => [s, t]
  | two _ a b => a.symbols ++ b.symbols

end Expr

/-- The value of a condition. -/
def condIn (r : Results) (c : Option Expr) : Tristate := c.elim .yes (Expr.valueIn r)

/-- The first property whose condition is not `n`. -/
def firstVisibleIn {α : Type} (r : Results) : List (α × Option Expr) → Option (α × Tristate)
  | [] => none
  | p :: ps => if condIn r p.2 ≠ .no then some (p.1, condIn r p.2) else firstVisibleIn r ps

/-- The conditions of the prompts together. -/
def promptsIn (r : Results) : Tristate → List (Option Expr) → Tristate
  | tri, [] => tri
  | tri, c :: cs => promptsIn r (tri.or (condIn r c)) cs

section Equations

variable (cfg : Config) (u : Settings) (r : Results) (s : Symbol)

/-- Whether one of the prompts is shown. -/
def visibleIn : Tristate := (promptsIn r .no (cfg s).prompts).toYes

/-- Whether the direct dependencies hold. -/
def dirDepIn : Tristate :=
  if (cfg s).isChoiceValue then .no else (condIn r (cfg s).dirDep).toYes

/-- Whether the symbol is selected. -/
def revDepIn : Tristate :=
  if (cfg s).isChoiceValue then .no
  else
    (cfg s).revDep.elim .no fun e ↦
      if e.valueIn r = .mod ∧ symGetType s = .boolean then .yes else e.valueIn r

/-- The default of a symbol of type boolean or tristate. -/
def defaultIn : Tristate :=
  if (cfg s).isChoice then .no
  else (firstVisibleIn r (cfg s).defaults).elim .no fun p ↦ (p.1.valueIn r).and p.2

/-- The value of a symbol of type boolean or tristate. -/
def tristateIn : Tristate :=
  let tri :=
    if visibleIn cfg r s ≠ .no ∧ (u s).has then (u s).tri.and (visibleIn cfg r s)
    else defaultIn cfg r s
  if tri.or (revDepIn cfg r s) = .mod ∧ symGetType s = .boolean then .yes
  else tri.or (revDepIn cfg r s)

/-- A choice value is shown. -/
def shownIn (m : Symbol) : Bool := visibleIn cfg r m ≠ .no

/-- The first default of a choice that is shown, or else the first choice value that is. -/
def choiceDefaultIn (values : List Symbol) : List (Expr × Option Expr) → Option Symbol
  | [] => values.find? (shownIn cfg r)
  | p :: ps =>
    if condIn r p.2 = .no then choiceDefaultIn values ps
    else
      match propGetSymbol p.1 with
      | none => none
      | some d => if shownIn cfg r d then some d else choiceDefaultIn values ps

/-- The value of a choice that is `y`: what the user has chosen, if it is shown, or else the
default. -/
def chosenIn : Option Symbol :=
  let default := choiceDefaultIn cfg r (cfg s).values (cfg s).defaults
  match (u s).val with
  | .sym d => if shownIn cfg r d then some d else default
  | _ => default

/-- A choice while its values are looked at. -/
def opened : Results := Function.update r s ⟨.null, .yes, .no, .no, .no⟩

/-- The number that a symbol stands for in a range. -/
def rangeValIn (t : Symbol) (base : Nat) : Int :=
  strtoll ((baseOf t.type).getD base) (r t).val.getText

/-- The text of a number in its range. -/
def clampIn (t : Bytes) : Bytes :=
  match baseOf s.type, firstVisibleIn r (cfg s).ranges with
  | some base, some (range, _) =>
    if strtoll base t < rangeValIn r range.1 base then
      rangeText s.type (rangeValIn r range.1 base)
    else if rangeValIn r range.2 base < strtoll base t then
      rangeText s.type (rangeValIn r range.2 base)
    else t
  | _, _ => t

/-- The text of a symbol, before it is compared with its range. -/
def rawTextIn : Bytes :=
  if visibleIn cfg r s ≠ .no ∧ (u s).has then (u s).val.getText
  else
    ((firstVisibleIn r (cfg s).defaults).bind fun p ↦ propGetSymbol p.1).elim []
      fun ds ↦ (r ds).val.getText

/-- The value of a symbol of type boolean or tristate, where a choice is not yet looked into. -/
def logicalIn : Tristate :=
  match (cfg s).choice with
  | some c =>
    if visibleIn cfg r s = .yes then if (r c).val = .sym s then .yes else .no
    else tristateIn cfg u r s
  | none => tristateIn cfg u r s

/-- What is worked out for a symbol. -/
def resultIn : Result :=
  if s = .yes then ⟨.text (str "y"), .yes, .no, .no, .no⟩
  else if s = .mod then ⟨.text (str "m"), .mod, .no, .no, .no⟩
  else if s = .no then ⟨.text (str "n"), .no, .no, .no, .no⟩
  else if s.isText then
    ⟨.text (clampIn cfg r s (rawTextIn cfg u r s)), .no, visibleIn cfg r s, dirDepIn cfg r s,
      revDepIn cfg r s⟩
  else if s.isLogical then
    if (cfg s).isChoice ∧ logicalIn cfg u r s = .yes then
      match chosenIn cfg u (opened r s) s with
      | some d => ⟨.sym d, .yes, visibleIn cfg r s, dirDepIn cfg r s, revDepIn cfg r s⟩
      | none => ⟨.null, .no, visibleIn cfg r s, dirDepIn cfg r s, revDepIn cfg r s⟩
    else
      ⟨.text (str "n"), logicalIn cfg u r s, visibleIn cfg r s, dirDepIn cfg r s,
        revDepIn cfg r s⟩
  else ⟨s.nameVal, .no, .no, .no, .no⟩

end Equations

/-! ### Configurations in which no symbol depends on itself -/

/-- The symbols of a condition. -/
def condSymbols (c : Option Expr) : List Symbol := c.elim [] Expr.symbols

/-- The symbols that the value of a symbol is worked out from, but for those in the prompts of its
choice values. -/
def Decl.symbols (d : Decl) : List Symbol :=
  d.prompts.flatMap condSymbols ++ condSymbols d.dirDep ++ condSymbols d.revDep ++
    d.defaults.flatMap (fun p ↦ condSymbols p.2) ++ d.ranges.flatMap (fun p ↦ condSymbols p.2) ++
    (if d.isChoice then [] else d.defaults.flatMap fun p ↦ p.1.symbols) ++
    d.ranges.flatMap fun p ↦ [p.1.1, p.1.2]

/-- The declarations are those of a configuration without warnings, in which every symbol has a
rank above those that it depends on. A choice stands above all that its values depend on. -/
structure WellFormed (cfg : Config) (rank : Symbol → Nat) : Prop where
  below : ∀ s, ∀ t ∈ (cfg s).symbols, rank t < rank s
  readable : ∀ s, ∀ t ∈ (cfg s).symbols, t.isLogical ∨ t.name.isSome
  choice_iff : ∀ c m, (cfg m).choice = some c ↔ m ∈ (cfg c).values
  choice : ∀ c, (cfg c).isChoice → c.isLogical ∧ (cfg c).choice = none ∧
    ∀ p ∈ (cfg c).defaults, ∃ d ∈ (cfg c).values, p.1 = .symbol d
  value : ∀ c m, (cfg m).choice = some c → m.isLogical ∧ (cfg m).auto = false ∧
    (cfg m).defaults = [] ∧ (cfg m).prompts ≠ [] ∧ ∀ p ∈ (cfg m).prompts, ∃ e, p = some e ∧
      e.dependsSymbol c = true ∧ ∀ t ∈ e.symbols, t = c ∨ rank t < rank c
  text_default : ∀ s, s.isText → ∀ p ∈ (cfg s).defaults, ∀ d, propGetSymbol p.1 = some d →
    (cfg d).isChoice = false
  range : ∀ s, ∀ p ∈ (cfg s).ranges,
    (cfg p.1.1).isChoice = false ∧ (cfg p.1.2).isChoice = false

/-- What the user has set are texts and choice values, where they belong. -/
structure Settings.Fit (cfg : Config) (u : Settings) : Prop where
  text : ∀ s, s.isText → (u s).has → ∃ t, (u s).val = .text t
  choice : ∀ c, (cfg c).isChoice → (u c).val = .null ∨ ∃ d ∈ (cfg c).values, (u c).val = .sym d

theorem Expr.mem_symbols_of_dependsSymbol {e : Expr} {s : Symbol}
    (h : e.dependsSymbol s = true) : s ∈ e.symbols := by
  induction e with
  | symbol t =>
    obtain rfl : t = s := by simpa [dependsSymbol] using h
    exact List.mem_singleton_self t
  | not e ih => simp [dependsSymbol] at h
  | comp b t t' =>
    obtain rfl : t = s := by
      cases b
      · simp only [dependsSymbol, Bool.and_eq_true, decide_eq_true_eq] at h
        exact h.1
      · simp only [dependsSymbol, Bool.and_eq_true, decide_eq_true_eq] at h
        exact h.1
    exact List.mem_cons_self
  | two j a b iha ihb =>
    cases j with
    | or => simp [dependsSymbol] at h
    | and =>
      simp only [dependsSymbol, Bool.or_eq_true] at h
      exact List.mem_append.mpr (h.imp iha ihb)

section Congruence

variable {cfg : Config} {rank : Symbol → Nat} {u : Settings} {r r' : Results} {s : Symbol}

/-- What expressions can see of a symbol is the same. -/
def Agree (r r' : Results) (s : Symbol) : Prop := (r s).tri = (r' s).tri ∧ textIn r s = textIn r' s

theorem Agree.of_eq (h : r s = r' s) : Agree r r' s := by
  rw [Agree, textIn, textIn, h]
  exact ⟨rfl, rfl⟩

theorem Expr.valueIn_congr {e : Expr} (h : ∀ t ∈ e.symbols, Agree r r' t) :
    e.valueIn r = e.valueIn r' := by
  induction e with
  | symbol s => exact (h s (List.mem_singleton_self s)).1
  | not e ih => rw [valueIn, valueIn, ih h]
  | comp b s t =>
    have hs := (h s List.mem_cons_self).2
    have ht := (h t (List.mem_cons_of_mem _ (List.mem_singleton_self t))).2
    rw [valueIn, valueIn, hs, ht]
  | two j a b iha ihb =>
    rw [symbols, List.forall_mem_append] at h
    rw [valueIn, valueIn, iha h.1, ihb h.2]

theorem condIn_congr {c : Option Expr} (h : ∀ t ∈ condSymbols c, Agree r r' t) :
    condIn r c = condIn r' c := by
  cases c with
  | none => rfl
  | some e => exact Expr.valueIn_congr h

theorem firstVisibleIn_congr {α : Type} {ps : List (α × Option Expr)}
    (h : ∀ t ∈ ps.flatMap (fun p ↦ condSymbols p.2), Agree r r' t) :
    firstVisibleIn r ps = firstVisibleIn r' ps := by
  induction ps with
  | nil => rfl
  | cons p ps ih =>
    rw [List.flatMap_cons, List.forall_mem_append] at h
    rw [firstVisibleIn, firstVisibleIn, condIn_congr h.1, ih h.2]

theorem promptsIn_congr {tri : Tristate} {cs : List (Option Expr)}
    (h : ∀ t ∈ cs.flatMap condSymbols, Agree r r' t) :
    promptsIn r tri cs = promptsIn r' tri cs := by
  induction cs generalizing tri with
  | nil => rfl
  | cons c cs ih =>
    rw [List.flatMap_cons, List.forall_mem_append] at h
    rw [promptsIn, promptsIn, condIn_congr h.1, ih h.2]

theorem visibleIn_congr (h : ∀ t ∈ (cfg s).prompts.flatMap condSymbols, Agree r r' t) :
    visibleIn cfg r s = visibleIn cfg r' s := by
  rw [visibleIn, visibleIn, promptsIn_congr h]

theorem mem_of_firstVisibleIn {α : Type} {ps : List (α × Option Expr)} {p : α × Tristate}
    (h : firstVisibleIn r ps = some p) : ∃ c, (p.1, c) ∈ ps ∧ condIn r c = p.2 ∧ p.2 ≠ .no := by
  induction ps with
  | nil => cases h
  | cons q ps ih =>
    rw [firstVisibleIn] at h
    split_ifs at h with hq
    · cases h
      exact ⟨q.2, List.mem_cons_self, rfl, hq⟩
    · obtain ⟨c, hmem, hval⟩ := ih h
      exact ⟨c, List.mem_cons_of_mem _ hmem, hval⟩

theorem propGetSymbol_eq_some {e : Expr} {d : Symbol} :
    propGetSymbol e = some d ↔ e = .symbol d := by
  cases e <;> simp [propGetSymbol]

/-- The choice values that a choice can have are its own. -/
theorem choiceDefaultIn_congr {values : List Symbol} {ps : List (Expr × Option Expr)}
    (hps : ∀ p ∈ ps, ∃ d ∈ values, p.1 = .symbol d)
    (hcond : ∀ t ∈ ps.flatMap (fun p ↦ condSymbols p.2), Agree r r' t)
    (hshown : ∀ m ∈ values, shownIn cfg r m = shownIn cfg r' m) :
    choiceDefaultIn cfg r values ps = choiceDefaultIn cfg r' values ps := by
  induction ps with
  | nil =>
    rw [choiceDefaultIn, choiceDefaultIn]
    exact List.find?_congr hshown
  | cons p ps ih =>
    rw [List.flatMap_cons, List.forall_mem_append] at hcond
    obtain ⟨⟨d, hd, hp⟩, hps⟩ := List.forall_mem_cons.mp hps
    rw [choiceDefaultIn, choiceDefaultIn, condIn_congr hcond.1, ih hps hcond.2, hp]
    simp only [propGetSymbol, hshown d hd]

theorem Decl.mem_symbols_of_prompt {d : Decl} {p : Option Expr} (hp : p ∈ d.prompts) {t : Symbol}
    (ht : t ∈ condSymbols p) : t ∈ d.symbols := by
  have h := List.mem_flatMap.mpr ⟨p, hp, ht⟩
  simp only [Decl.symbols, List.mem_append]
  tauto

theorem Decl.forall_mem_symbols {d : Decl} {P : Symbol → Prop} :
    (∀ t ∈ d.symbols, P t) ↔
      (∀ t ∈ d.prompts.flatMap condSymbols, P t) ∧ (∀ t ∈ condSymbols d.dirDep, P t) ∧
      (∀ t ∈ condSymbols d.revDep, P t) ∧
      (∀ t ∈ d.defaults.flatMap (fun p ↦ condSymbols p.2), P t) ∧
      (∀ t ∈ d.ranges.flatMap (fun p ↦ condSymbols p.2), P t) ∧
      (∀ t ∈ if d.isChoice then [] else d.defaults.flatMap fun p ↦ p.1.symbols, P t) ∧
      ∀ t ∈ d.ranges.flatMap fun p ↦ [p.1.1, p.1.2], P t := by
  simp only [Decl.symbols, List.forall_mem_append, and_assoc]

/-- A choice stands below its values. -/
theorem WellFormed.choice_lt (wf : WellFormed cfg rank) {c m : Symbol}
    (h : (cfg m).choice = some c) : rank c < rank m := by
  obtain ⟨-, -, -, hne, hprompts⟩ := wf.value c m h
  obtain ⟨p, hp⟩ := List.exists_mem_of_ne_nil _ hne
  obtain ⟨e, rfl, he, -⟩ := hprompts p hp
  exact wf.below m c (Decl.mem_symbols_of_prompt hp (Expr.mem_symbols_of_dependsSymbol he))

/-- The prompts of a choice value are about the choice and what stands below it. -/
theorem WellFormed.of_prompts (wf : WellFormed cfg rank) {c m : Symbol}
    (h : (cfg m).choice = some c) :
    ∀ t ∈ (cfg m).prompts.flatMap condSymbols, t = c ∨ rank t < rank c := by
  intro t ht
  obtain ⟨p, hp, ht⟩ := List.mem_flatMap.mp ht
  obtain ⟨-, -, -, -, hprompts⟩ := wf.value c m h
  obtain ⟨e, rfl, -, he⟩ := hprompts p hp
  exact he t ht

/-- A symbol with a text is no choice and no choice value. -/
theorem WellFormed.of_isText (wf : WellFormed cfg rank) (h : s.isText) :
    s.isLogical = false ∧ (cfg s).isChoice = false ∧ (cfg s).choice = none := by
  have hlogical : s.isLogical = false := by
    unfold Symbol.isText Symbol.isLogical at *
    cases hs : s.type <;> simp_all
  refine ⟨hlogical, ?_, ?_⟩
  · rw [Bool.eq_false_iff]
    intro hc
    rw [(wf.choice s hc).1] at hlogical
    cases hlogical
  · cases hc : (cfg s).choice with
    | none => rfl
    | some c =>
      rw [(wf.value c s hc).1] at hlogical
      cases hlogical

/-- What the values of the symbols in the declaration decide. -/
theorem own_congr (h : ∀ t ∈ (cfg s).symbols, r t = r' t) :
    visibleIn cfg r s = visibleIn cfg r' s ∧ dirDepIn cfg r s = dirDepIn cfg r' s ∧
      revDepIn cfg r s = revDepIn cfg r' s ∧ tristateIn cfg u r s = tristateIn cfg u r' s ∧
      (∀ t, clampIn cfg r s t = clampIn cfg r' s t) := by
  have hagree : ∀ t ∈ (cfg s).symbols, Agree r r' t := fun t ht ↦ Agree.of_eq (h t ht)
  obtain ⟨hprompts, hdir, hrev, hdefs, hranges, hexprs, -⟩ := Decl.forall_mem_symbols.mp hagree
  obtain ⟨-, -, -, -, -, -, hbounds⟩ := Decl.forall_mem_symbols.mp h
  have hvisible : visibleIn cfg r s = visibleIn cfg r' s := visibleIn_congr hprompts
  have hrevDep : revDepIn cfg r s = revDepIn cfg r' s := by
    unfold revDepIn
    cases hd : (cfg s).revDep with
    | none => rfl
    | some e =>
      rw [hd] at hrev
      simp only [Option.elim_some, Expr.valueIn_congr hrev]
  have hdefault : defaultIn cfg r s = defaultIn cfg r' s := by
    unfold defaultIn
    split_ifs with hchoice
    · rfl
    · rw [if_neg hchoice] at hexprs
      rw [firstVisibleIn_congr hdefs]
      cases hd : firstVisibleIn r' (cfg s).defaults with
      | none => rfl
      | some p =>
        obtain ⟨c, hmem, -⟩ := mem_of_firstVisibleIn hd
        simp only [Option.elim_some]
        rw [Expr.valueIn_congr fun t ht ↦ hexprs t (List.mem_flatMap.mpr ⟨_, hmem, ht⟩)]
  refine ⟨hvisible, ?_, hrevDep, ?_, fun t ↦ ?_⟩
  · rw [dirDepIn, dirDepIn, condIn_congr hdir]
  · simp only [tristateIn, hvisible, hrevDep, hdefault]
  · unfold clampIn
    rw [firstVisibleIn_congr hranges]
    cases baseOf s.type with
    | none => rfl
    | some base =>
      rcases hr : firstVisibleIn r' (cfg s).ranges with _ | ⟨range, v⟩
      · rfl
      · obtain ⟨c, hmem, -⟩ := mem_of_firstVisibleIn hr
        have hlow := hbounds range.1 (List.mem_flatMap.mpr ⟨_, hmem, List.mem_cons_self⟩)
        have hhigh := hbounds range.2
          (List.mem_flatMap.mpr ⟨_, hmem, List.mem_cons_of_mem _ (List.mem_singleton_self _)⟩)
        dsimp only
        rw [show rangeValIn r range.1 base = rangeValIn r' range.1 base by
            rw [rangeValIn, rangeValIn, hlow],
          show rangeValIn r range.2 base = rangeValIn r' range.2 base by
            rw [rangeValIn, rangeValIn, hhigh]]

/-- What the user has chosen or the default, for a choice that is `y`. -/
theorem chosenIn_congr (wf : WellFormed cfg rank) (hu : u.Fit cfg) (hs : (cfg s).isChoice)
    (h : ∀ t, rank t < rank s → r t = r' t) :
    chosenIn cfg u (opened r s) s = chosenIn cfg u (opened r' s) s := by
  have hopened (t : Symbol) (ht : t = s ∨ rank t < rank s) : opened r s t = opened r' s t := by
    by_cases hts : t = s
    · subst hts
      rw [opened, opened, Function.update_self, Function.update_self]
    · rw [opened, opened, Function.update_of_ne hts, Function.update_of_ne hts,
        h t (ht.resolve_left hts)]
  have hshown : ∀ m ∈ (cfg s).values, shownIn cfg (opened r s) m = shownIn cfg (opened r' s) m := by
    intro m hm
    rw [shownIn, shownIn, visibleIn_congr]
    exact fun t ht ↦ Agree.of_eq (hopened t (wf.of_prompts ((wf.choice_iff s m).mpr hm) t ht))
  have hdefault := choiceDefaultIn_congr (wf.choice s hs).2.2
    (fun t ht ↦ Agree.of_eq (hopened t (.inr ?_))) hshown
  · unfold chosenIn
    rw [hdefault]
    rcases hu.choice s hs with hval | ⟨d, hd, hval⟩
    · rw [hval]
    · simp only [hval, hshown d hd]
  · obtain ⟨-, -, -, hdefs, -⟩ := Decl.forall_mem_symbols.mp (wf.below s)
    exact hdefs t ht

/-- The choice of a symbol is a choice. -/
theorem WellFormed.isChoice_of_choice (wf : WellFormed cfg rank) {c : Symbol}
    (hc : (cfg s).choice = some c) : (cfg c).isChoice ∧ c.isLogical := by
  have hmem := (wf.choice_iff c s).mp hc
  have hchoice : (cfg c).isChoice := by
    by_contra h
    rw [Bool.not_eq_true, Decl.isChoice, Option.isSome_eq_false_iff,
      Option.isNone_iff_eq_none] at h
    rw [Decl.values, h] at hmem
    cases hmem
  exact ⟨hchoice, (wf.choice c hchoice).1⟩

/-- While a choice is `y`, its values look at it as they do when it is worked out. -/
theorem visibleIn_opened (wf : WellFormed cfg rank) {m : Symbol} (hm : (cfg m).choice = some s)
    (hyes : (r s).tri = .yes) : visibleIn cfg (opened r s) m = visibleIn cfg r m := by
  refine visibleIn_congr fun t ht ↦ ?_
  rcases wf.of_prompts hm t ht with rfl | hlt
  · have hlogical := (wf.isChoice_of_choice hm).2
    rw [Agree, textIn, textIn, if_pos hlogical, if_pos hlogical, opened, Function.update_self,
      hyes]
    exact ⟨rfl, rfl⟩
  · refine Agree.of_eq (Function.update_of_ne ?_ _ _)
    rintro rfl
    exact lt_irrefl _ hlt

/-- What is worked out for a symbol is decided by the symbols of a lower rank. -/
theorem resultIn_congr (wf : WellFormed cfg rank) (hu : u.Fit cfg)
    (h : ∀ t, rank t < rank s → r t = r' t) : resultIn cfg u r s = resultIn cfg u r' s := by
  have hbelow : ∀ t ∈ (cfg s).symbols, r t = r' t := fun t ht ↦ h t (wf.below s t ht)
  obtain ⟨hvisible, hdir, hrev, htri, hclamp⟩ := own_congr (u := u) hbelow
  have hraw (ht : s.isText) : rawTextIn cfg u r s = rawTextIn cfg u r' s := by
    unfold rawTextIn
    obtain ⟨-, -, -, hdefs, -, hexprs, -⟩ := Decl.forall_mem_symbols.mp hbelow
    rw [if_neg (by simp [(wf.of_isText ht).2.1])] at hexprs
    rw [hvisible, firstVisibleIn_congr fun t ht ↦ Agree.of_eq (hdefs t ht)]
    rcases hd : firstVisibleIn r' (cfg s).defaults with _ | ⟨e, v⟩
    · rfl
    · obtain ⟨c, hmem, -⟩ := mem_of_firstVisibleIn hd
      cases e with
      | symbol ds =>
        have hds := hexprs ds (List.mem_flatMap.mpr ⟨_, hmem, List.mem_singleton_self ds⟩)
        simp only [Option.bind_some, propGetSymbol, Option.elim_some, hds]
      | _ => rfl
  have hlogical : logicalIn cfg u r s = logicalIn cfg u r' s := by
    unfold logicalIn
    rw [hvisible, htri]
    cases hc : (cfg s).choice with
    | none => rfl
    | some c => simp only [h c (wf.choice_lt hc)]
  unfold resultIn
  rw [hvisible, hdir, hrev, hclamp, hlogical]
  by_cases htext : s.isText
  · simp only [htext, if_true, hraw htext]
  · by_cases hchoice : (cfg s).isChoice
    · rw [chosenIn_congr wf hu hchoice h]
      simp only [htext]
      rfl
    · simp [hchoice, htext]

/-- The values that can be told after `n` steps down. -/
def approx (cfg : Config) (u : Settings) : Nat → Results
  | 0 => fun _ ↦ ⟨.null, .no, .no, .no, .no⟩
  | n + 1 => resultIn cfg u (approx cfg u n)

/-- What is to be worked out for each symbol. -/
def solution (cfg : Config) (rank : Symbol → Nat) (u : Settings) : Results := fun s ↦
  approx cfg u (rank s + 1) s

theorem approx_eq (wf : WellFormed cfg rank) (hu : u.Fit cfg) {n : Nat} (h : rank s < n) :
    approx cfg u n s = solution cfg rank u s := by
  suffices hk : ∀ k s n, rank s < k → rank s < n → approx cfg u n s = solution cfg rank u s from
    hk _ s n (Nat.lt_succ_self _) h
  intro k
  induction k with
  | zero => exact fun s _ hs _ ↦ absurd hs (Nat.not_lt_zero _)
  | succ k ih =>
    intro s n hs hn
    obtain ⟨n, rfl⟩ := Nat.exists_eq_add_of_lt (Nat.lt_of_le_of_lt (Nat.zero_le _) hn)
    rw [Nat.zero_add] at hn ⊢
    refine resultIn_congr wf hu fun t ht ↦ ?_
    have htk : rank t < k := Nat.lt_of_lt_of_le ht (Nat.le_of_lt_succ hs)
    rw [ih t n htk (Nat.lt_of_lt_of_le ht (Nat.le_of_lt_succ hn)), ih t (rank s) htk ht]

/-- What is to be worked out meets all equations. -/
theorem solution_eq (wf : WellFormed cfg rank) (hu : u.Fit cfg) (s : Symbol) :
    solution cfg rank u s = resultIn cfg u (solution cfg rank u) s :=
  resultIn_congr wf hu fun _ ht ↦ approx_eq wf hu ht

/-- Nothing else does. -/
theorem solution_unique (wf : WellFormed cfg rank) (hu : u.Fit cfg)
    (hr : ∀ s, r s = resultIn cfg u r s) : r = solution cfg rank u := by
  suffices h : ∀ k s, rank s < k → r s = solution cfg rank u s from
    funext fun s ↦ h _ s (Nat.lt_succ_self _)
  intro k
  induction k with
  | zero => exact fun s hs ↦ absurd hs (Nat.not_lt_zero _)
  | succ k ih =>
    intro s hs
    rw [hr, solution_eq wf hu]
    exact resultIn_congr wf hu fun t ht ↦ ih t (Nat.lt_of_lt_of_le ht (Nat.le_of_lt_succ hs))

end Congruence

/-! ### What the values are like -/

section Values

variable {cfg : Config} {rank : Symbol → Nat} {u : Settings} {s : Symbol}

theorem Symbol.symGetType_of_isLogical (h : s.isLogical) : symGetType s = .boolean := by
  unfold Symbol.isLogical at h
  unfold symGetType
  cases hs : s.type <;> simp_all

theorem tristateIn_ne_mod {r : Results} (h : s.isLogical) : tristateIn cfg u r s ≠ .mod := by
  have hne (x : Tristate) :
      (if x = .mod ∧ symGetType s = .boolean then Tristate.yes else x) ≠ .mod := by
    rw [Symbol.symGetType_of_isLogical h]
    cases x <;> decide
  exact hne _

theorem logicalIn_ne_mod {r : Results} (h : s.isLogical) : logicalIn cfg u r s ≠ .mod := by
  unfold logicalIn
  cases (cfg s).choice with
  | none => exact tristateIn_ne_mod h
  | some c =>
    dsimp only
    split_ifs
    · decide
    · decide
    · exact tristateIn_ne_mod h

theorem Symbol.not_constant (h : s.isLogical ∨ s.isText) : s ≠ .yes ∧ s ≠ .mod ∧ s ≠ .no := by
  refine ⟨?_, ?_, ?_⟩ <;> rintro rfl <;> exact absurd h (by decide)

/-- What is worked out for a symbol of type boolean or tristate. -/
theorem resultIn_of_isLogical (r : Results) (h : s.isLogical) :
    resultIn cfg u r s =
      if (cfg s).isChoice ∧ logicalIn cfg u r s = .yes then
        ⟨(chosenIn cfg u (opened r s) s).elim .null .sym,
          if (chosenIn cfg u (opened r s) s).isSome then .yes else .no, visibleIn cfg r s,
          dirDepIn cfg r s, revDepIn cfg r s⟩
      else
        ⟨.text (str "n"), logicalIn cfg u r s, visibleIn cfg r s, dirDepIn cfg r s,
          revDepIn cfg r s⟩ := by
  obtain ⟨hy, hm, hn⟩ := Symbol.not_constant (.inl h)
  have htext : s.isText = false := by
    unfold Symbol.isLogical Symbol.isText at *
    cases hs : s.type <;> simp_all
  unfold resultIn
  rw [if_neg hy, if_neg hm, if_neg hn, if_neg (by simp [htext]), if_pos h]
  cases chosenIn cfg u (opened r s) s <;> rfl

/-- What is worked out for a symbol with a text. -/
theorem resultIn_of_isText (r : Results) (h : s.isText) :
    resultIn cfg u r s =
      ⟨.text (clampIn cfg r s (rawTextIn cfg u r s)), .no, visibleIn cfg r s, dirDepIn cfg r s,
        revDepIn cfg r s⟩ := by
  obtain ⟨hy, hm, hn⟩ := Symbol.not_constant (.inr h)
  unfold resultIn
  rw [if_neg hy, if_neg hm, if_neg hn, if_pos h]

/-- What is worked out for a symbol without a type. -/
theorem resultIn_of_other (r : Results) (hs : s ≠ .yes ∧ s ≠ .mod ∧ s ≠ .no)
    (hl : s.isLogical = false) (ht : s.isText = false) :
    resultIn cfg u r s = ⟨s.nameVal, .no, .no, .no, .no⟩ := by
  unfold resultIn
  rw [if_neg hs.1, if_neg hs.2.1, if_neg hs.2.2, if_neg (by simp [ht]), if_neg (by simp [hl])]

theorem resultIn_seen (r : Results) (h : s.isLogical ∨ s.isText) :
    (resultIn cfg u r s).visible = visibleIn cfg r s ∧
      (resultIn cfg u r s).dirDep = dirDepIn cfg r s ∧
      (resultIn cfg u r s).revDep = revDepIn cfg r s := by
  rcases h with h | h
  · rw [resultIn_of_isLogical r h]
    split_ifs <;> exact ⟨rfl, rfl, rfl⟩
  · rw [resultIn_of_isText r h]
    exact ⟨rfl, rfl, rfl⟩

/-- A symbol of type boolean or tristate is never `m`. -/
theorem resultIn_ne_mod (r : Results) (h : s.isLogical) : (resultIn cfg u r s).tri ≠ .mod := by
  rw [resultIn_of_isLogical r h]
  split_ifs
  · exact Tristate.noConfusion
  · exact Tristate.noConfusion
  · exact logicalIn_ne_mod h

/-- What is no choice has a text, if it has a name or a type. -/
theorem exists_text (r : Results) (hc : (cfg s).isChoice = false)
    (h : s.isLogical ∨ s.name.isSome) : ∃ t, (resultIn cfg u r s).val = .text t := by
  unfold resultIn
  simp only [hc, Bool.false_eq_true, false_and, if_false]
  split_ifs with h1 h2 h3 h4 h5
  · exact ⟨_, rfl⟩
  · exact ⟨_, rfl⟩
  · exact ⟨_, rfl⟩
  · exact ⟨_, rfl⟩
  · exact ⟨_, rfl⟩
  · obtain ⟨n, hn⟩ := Option.isSome_iff_exists.mp (h.resolve_left h5)
    exact ⟨n, by simp [Symbol.nameVal, hn]⟩

/-- A constant is its own text. -/
theorem resultIn_const (r : Results) (name : Bytes) :
    (resultIn cfg u r (.const name)).val = .text name := by
  by_cases hy : name = Base.str "y"
  · rw [hy]
    rfl
  by_cases hm : name = Base.str "m"
  · rw [hm]
    rfl
  by_cases hn : name = Base.str "n"
  · rw [hn]
    rfl
  rw [resultIn_of_other r ⟨fun h ↦ hy (Symbol.const.inj h), fun h ↦ hm (Symbol.const.inj h),
    fun h ↦ hn (Symbol.const.inj h)⟩ rfl rfl]
  rfl

/-- No symbol is `m` but the constant. -/
theorem tri_ne_mod (r : Results) (hs : s ≠ .mod) : (resultIn cfg u r s).tri ≠ .mod := by
  by_cases hl : s.isLogical
  · exact resultIn_ne_mod r hl
  · unfold resultIn
    rw [if_neg hs]
    split_ifs <;> exact Tristate.noConfusion

/-- The solution as the values of the symbols in expressions. -/
def solutionEnv (wf : WellFormed cfg rank) (hu : u.Fit cfg) : Env where
  tri s := (solution cfg rank u s).tri
  str := textIn (solution cfg rank u)
  tri_yes := by rw [solution_eq wf hu]; rfl
  tri_mod := by rw [solution_eq wf hu]; rfl
  tri_no := by rw [solution_eq wf hu]; rfl
  str_const name := by
    rw [textIn, if_neg (by simp [Symbol.isLogical, Symbol.type]), solution_eq wf hu,
      resultIn_const, Val.getText]
  tri_boolean s hs := by
    rw [solution_eq wf hu]
    exact resultIn_ne_mod _ (by simp [Symbol.isLogical, hs])
  str_text s hs := by
    rw [textIn, if_pos]
    rcases hs with hs | hs <;> simp [Symbol.isLogical, hs]

theorem solutionEnv_twoValued (wf : WellFormed cfg rank) (hu : u.Fit cfg) :
    (solutionEnv wf hu).TwoValued := by
  intro s hs
  have hval : (solutionEnv wf hu).tri s = (resultIn cfg u (solution cfg rank u) s).tri :=
    congrArg Result.tri (solution_eq wf hu s)
  rw [hval]
  exact tri_ne_mod _ hs

theorem valueIn_solution (wf : WellFormed cfg rank) (hu : u.Fit cfg) (e : Expr) :
    e.valueIn (solution cfg rank u) = e.calcValue (solutionEnv wf hu) := by
  induction e with
  | symbol s => rfl
  | not e ih => rw [Expr.valueIn, Expr.calcValue, ih]
  | comp equal s t =>
    cases equal with
    | true =>
      rw [Expr.valueIn, Expr.calcValue, beq_true]
      rfl
    | false =>
      rw [Expr.valueIn, Expr.calcValue, beq_false, ← decide_not]
      rfl
  | two j a b iha ihb => rw [Expr.valueIn, Expr.calcValue, iha, ihb]

end Values

end MotionPie.Support.Kconfig
