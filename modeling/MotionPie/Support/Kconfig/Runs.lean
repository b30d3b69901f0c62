import MotionPie.Support.Kconfig.MenuFinalize
import MotionPie.Support.Kconfig.UserText

/-!
# All that a front end can do

From the configuration as it has been parsed on, symbols are asked for and set in any order.
-/

namespace MotionPie.Support.Kconfig

open Base

variable {cfg : Config} {rank : Symbol → Nat} {u : Settings} {s : Symbol} {μ : Memory} {fuel : Nat}
  {newval : Bytes}

/-- Nothing is set and nothing is worked out after the parser. -/
theorem parsed_solves (wf : WellFormed cfg rank) :
    Solves cfg rank (fun _ ↦ ⟨false, .no, .null⟩) parsed := by
  have hkept : Kept cfg (fun _ ↦ ⟨false, .no, .null⟩) parsed := by
    refine ⟨fun s hs ↦ ?_, fun s ↦ ?_, fun s hs ↦ ?_, fun s hl ht ↦ ?_⟩
    · rcases hs with rfl | rfl | rfl <;> exact ⟨rfl, fun _ ↦ rfl⟩
    · unfold parsed
      split_ifs <;> exact ⟨rfl, rfl, fun _ ↦ rfl⟩
    · unfold parsed
      split_ifs <;> exact ⟨rfl, rfl⟩
    · unfold parsed
      split_ifs <;> exact ⟨rfl, rfl, rfl⟩
  have hclear := hkept.clear wf
    ⟨fun _ _ h ↦ Bool.noConfusion h, fun _ _ ↦ .inl rfl⟩ (funext fun s ↦ ?_)
  · rw [symClearAllValid, ensures_modify] at hclear
    have hsame : (fun s ↦ if s = .yes ∨ s = .mod ∨ s = .no then parsed s
        else { parsed s with valid := false }) = parsed := by
      funext s
      split_ifs with hs
      · rfl
      · rw [not_or, not_or] at hs
        simp only [parsed, if_neg hs.1, if_neg hs.2.1, if_neg hs.2.2]
    rwa [hsame] at hclear
  · unfold settings parsed
    split_ifs <;> rfl

theorem symStringValid_eq_false (hl : s.isLogical = false) (ht : s.isText = false) (text : Bytes) :
    symStringValid s text = false := by
  unfold Symbol.isLogical at hl
  unfold Symbol.isText at ht
  unfold symStringValid
  cases hs : s.type <;> simp_all

/-- A call that sets a value. -/
theorem ensures_setValue (wf : WellFormed cfg rank) (hm : Mandatory cfg)
    (hfuel : ∀ s, rank s + 1 < fuel) (h : Solves cfg rank u μ) (hfresh : u.Fresh) (s : Symbol)
    (newval : Bytes) :
    Ensures (setValue cfg fuel s newval) μ fun b ν ↦ ∃ u', Solves cfg rank u' ν ∧ u'.Fresh ∧
      (b = true → s.isLogical → (cfg s).isChoice = false →
        tristateOf newval = some (solution cfg rank u' s).tri) ∧
      (b = true → s.isText → (solution cfg rank u s).visible ≠ .no →
        (solution cfg rank u' s).val = .text (withHexPrefix s newval)) := by
  simp only [setValue, ensures_bind]
  refine (h.calc wf (hfuel s)).mono ?_
  rintro _ ν ⟨h, -, hvalid⟩
  unfold symSetStringValue
  rw [ensures_ite]
  refine ⟨fun hl ↦ ?_, fun hl ↦ ?_⟩
  · have ht : ¬ s.isText := fun ht ↦ by
      rw [(wf.of_isText ht).1] at hl
      cases hl
    cases hval : tristateOf newval with
    | none =>
      refine ensures_pure.mpr ⟨u, h, hfresh, ?_, ?_⟩
      · exact fun hb ↦ Bool.noConfusion hb
      · exact fun hb ↦ Bool.noConfusion hb
    | some val =>
      refine (ensures_symSetTristateValue wf hm h hl hvalid val).mono ?_
      rintro b ξ ⟨u', h, hfresh', hb⟩
      refine ⟨u', h, hfresh' hfresh, fun hyes _ hno ↦ ?_, fun _ hs ↦ absurd hs ht⟩
      rw [hb hyes hno]
  · by_cases ht : s.isText
    · refine (ensures_symSetText wf hm hfuel h hfresh ht newval).mono ?_
      rintro b ξ ⟨u', h, hfresh', hb⟩
      exact ⟨u', h, hfresh', fun _ hs ↦ absurd hs hl, fun hyes _ ↦ hb hyes⟩
    · have hfalse := symStringValid_eq_false (by simpa using hl) (by simpa using ht) newval
      -- a symbol of another type has no valid text, so nothing is set
      simp only [symSetText, symStringWithinRange, hfalse, Bool.false_eq_true, not_false_eq_true,
        if_true, pure_bind, ensures_pure]
      exact ⟨u, h, hfresh, fun hb ↦ hb.elim, fun hb ↦ hb.elim⟩

/-! ### What `menu_finalize` leaves -/

theorem condIn_solution (wf : WellFormed cfg rank) (hu : u.Fit cfg) (c : Option Expr) :
    condIn (solution cfg rank u) c = condValue (solutionEnv wf hu) c := by
  cases c with
  | none => rfl
  | some e => exact valueIn_solution wf hu e

/-- A symbol with one prompt is shown where its condition and those of the menus above hold. -/
theorem visible_of_finalizeProp (wf : WellFormed cfg rank) (hu : u.Fit cfg)
    (hs : s.isLogical ∨ s.isText) {base cond : Option Expr}
    (hprompts : (cfg s).prompts = [finalizeProp (some s) base cond])
    (hbase : CondHolds Expr.WithoutMod base) (hcond : CondHolds Expr.WithoutMod cond) :
    (solution cfg rank u s).visible =
      (condIn (solution cfg rank u) base).and (condIn (solution cfg rank u) cond) := by
  have henv := solutionEnv_twoValued wf hu
  have hvalue := condValue_finalizeProp henv (some s) hbase hcond
  have hne (c : Option Expr) (hc : CondHolds Expr.WithoutMod c) :
      condValue (solutionEnv wf hu) c ≠ .mod := by
    cases c with
    | none => exact Tristate.noConfusion
    | some e => exact (hc e rfl).calcValue_ne henv
  have hor (a : Tristate) (ha : a ≠ .mod) : (Tristate.no.or a).toYes = a := by
    cases a <;> first | rfl | exact absurd rfl ha
  have hvisible : (resultIn cfg u (solution cfg rank u) s).visible =
      visibleIn cfg (solution cfg rank u) s := (resultIn_seen _ hs).1
  rw [← solution_eq wf hu, visibleIn, hprompts, promptsIn, promptsIn, condIn_solution wf hu,
    hvalue] at hvisible
  rw [hvisible, condIn_solution wf hu, condIn_solution wf hu]
  exact hor _ (Junction.op_ne_mod .and (hne base hbase) (hne cond hcond))

/-! ### Numbers in range -/

theorem rangeValIn_mem (r : Results) (t : Symbol) (base : Nat) :
    llongMin ≤ rangeValIn r t base ∧ rangeValIn r t base ≤ llongMax := by
  rw [rangeValIn, strtoll]
  exact ⟨le_max_left _ _, max_le (by decide) (min_le_left _ _)⟩

theorem isText_of_baseOf {base : Nat} (h : baseOf s.type = some base) : s.isText := by
  unfold Symbol.isText
  cases hs : s.type <;> rw [hs] at h <;> first | rfl | cases h

/-- The bound that is written in place of a number is read as itself. -/
theorem strtoll_rangeText {type : SymbolType} {base : Nat} (hbase : baseOf type = some base)
    {v : Int} (hlow : llongMin ≤ v) (hhigh : v ≤ llongMax) (hhex : type = .hex → 0 ≤ v) :
    strtoll base (rangeText type v) = v := by
  unfold rangeText
  cases type <;> cases hbase
  · exact strtoll_showInt v hlow hhigh
  · exact strtoll_showHex v (hhex rfl) hhigh

/-- A number is between the bounds of its range, if these are not the wrong way round. -/
theorem solution_mem_range (wf : WellFormed cfg rank) (hu : u.Fit cfg) {base : Nat}
    (hbase : baseOf s.type = some base) {lo hi : Symbol} {tri : Tristate}
    (hrange : firstVisibleIn (solution cfg rank u) (cfg s).ranges = some ((lo, hi), tri))
    (hle : rangeValIn (solution cfg rank u) lo base ≤ rangeValIn (solution cfg rank u) hi base)
    (hhex : s.type = .hex → 0 ≤ rangeValIn (solution cfg rank u) lo base) :
    ∃ t, (solution cfg rank u s).val = .text t ∧
      rangeValIn (solution cfg rank u) lo base ≤ strtoll base t ∧
      strtoll base t ≤ rangeValIn (solution cfg rank u) hi base := by
  have htext := isText_of_baseOf hbase
  obtain ⟨hlow, hlow'⟩ := rangeValIn_mem (solution cfg rank u) lo base
  obtain ⟨hhigh, hhigh'⟩ := rangeValIn_mem (solution cfg rank u) hi base
  refine ⟨_, by rw [solution_eq wf hu, resultIn_of_isText _ htext], ?_⟩
  simp only [clampIn, hbase, hrange]
  split_ifs with hunder hover
  · rw [strtoll_rangeText hbase hlow hlow' hhex]
    exact ⟨Int.le_refl _, hle⟩
  · rw [strtoll_rangeText hbase hhigh hhigh' fun h ↦ (hhex h).trans hle]
    exact ⟨hle, Int.le_refl _⟩
  · exact ⟨not_lt.mp hunder, not_lt.mp hover⟩

/-! ### Configurations without a warning -/

/-- A configuration that the parser lets pass without a warning. No choice is optional, as in all
of the repository's `Config.in`, and no symbol depends on itself, which `sym_check_deps` sees to. -/
structure Checked where
  cfg : Config
  rank : Symbol → Nat
  height : Nat
  wf : WellFormed cfg rank
  mandatory : Mandatory cfg
  rank_lt : ∀ s, rank s < height

/-! ### A choice between two symbols -/

/-- A choice. -/
def exampleChoice : Symbol := .choice 0 .boolean

/-- Its first value. -/
def exampleFirst : Symbol := .config (str "A") .boolean

/-- Its second value. -/
def exampleSecond : Symbol := .config (str "B") .boolean

/-- A number, which the first value shows. -/
def exampleNumber : Symbol := .config (str "N") .hex

/-- The declarations of these. -/
def exampleConfig : Config := fun s ↦
  if s = exampleChoice then
    ⟨[none], [], [], some [exampleFirst, exampleSecond], none, true, none, some (.symbol .mod)⟩
  else if s = exampleFirst ∨ s = exampleSecond then
    ⟨[some (.symbol exampleChoice)], [], [], none, some exampleChoice, false,
      some (.symbol exampleChoice), none⟩
  else if s = exampleNumber then
    ⟨[some (.symbol exampleFirst)], [],
      [((.const (str "0x1"), .const (str "0xff")), none)], none, none, false,
      some (.symbol exampleFirst), none⟩
  else ⟨[], [], [], none, none, false, none, none⟩

/-- A choice stands below its values, and these below what they show. -/
def exampleRank (s : Symbol) : Nat :=
  if s = exampleChoice then 1
  else if s = exampleFirst ∨ s = exampleSecond then 2
  else if s = exampleNumber then 3
  else 0

theorem exampleConfig_cases {P : Symbol → Prop} (hc : P exampleChoice) (ha : P exampleFirst)
    (hb : P exampleSecond) (hn : P exampleNumber)
    (h : ∀ s, exampleConfig s = ⟨[], [], [], none, none, false, none, none⟩ → P s) (s : Symbol) :
    P s := by
  by_cases h1 : s = exampleChoice
  · rwa [h1]
  by_cases h2 : s = exampleFirst
  · rwa [h2]
  by_cases h3 : s = exampleSecond
  · rwa [h3]
  by_cases h4 : s = exampleNumber
  · rwa [h4]
  exact h s (by simp [exampleConfig, h1, h2, h3, h4])

theorem exampleConfig_choice {c m : Symbol} : (exampleConfig m).choice = some c ↔
    c = exampleChoice ∧ (m = exampleFirst ∨ m = exampleSecond) := by
  constructor
  · intro h
    unfold exampleConfig at h
    split_ifs at h with hchoice hvalue
    cases h
    exact ⟨rfl, hvalue⟩
  · rintro ⟨rfl, rfl | rfl⟩ <;> decide +kernel

theorem exampleConfig_defaults (s : Symbol) : (exampleConfig s).defaults = [] := by
  unfold exampleConfig
  split_ifs <;> rfl

theorem exampleConfig_wf : WellFormed exampleConfig exampleRank where
  below := by
    refine exampleConfig_cases (by decide +kernel) (by decide +kernel) (by decide +kernel)
      (by decide +kernel) fun s hs ↦ ?_
    simp [hs, Decl.symbols, condSymbols, Decl.isChoice]
  readable := by
    refine exampleConfig_cases (by decide +kernel) (by decide +kernel) (by decide +kernel)
      (by decide +kernel) fun s hs ↦ ?_
    simp [hs, Decl.symbols, condSymbols, Decl.isChoice]
  choice_iff c m := by
    rw [exampleConfig_choice]
    constructor
    · rintro ⟨rfl, rfl | rfl⟩ <;> decide +kernel
    · intro h
      unfold exampleConfig Decl.values at h
      split_ifs at h with hchoice <;> simp_all
  choice := by
    refine exampleConfig_cases (by decide +kernel) (by decide +kernel) (by decide +kernel)
      (by decide +kernel) fun s hs ↦ ?_
    simp [hs, Decl.isChoice]
  value c m hm := by
    have hprompts : (exampleConfig m).prompts = [some (.symbol c)] ∧ m.isLogical ∧
        (exampleConfig m).auto = false := by
      obtain ⟨rfl, rfl | rfl⟩ := exampleConfig_choice.mp hm <;> decide +kernel
    rw [hprompts.1]
    refine ⟨hprompts.2.1, hprompts.2.2, exampleConfig_defaults m, by simp, fun p hp ↦ ?_⟩
    refine ⟨.symbol c, List.mem_singleton.mp hp, by simp [Expr.dependsSymbol], fun t ht ↦ ?_⟩
    exact .inl (List.mem_singleton.mp ht)
  text_default s _ p hp := by
    rw [exampleConfig_defaults] at hp
    cases hp
  range := by
    refine exampleConfig_cases (by decide +kernel) (by decide +kernel) (by decide +kernel)
      (by decide +kernel) fun s hs ↦ ?_
    simp [hs]

/-- The choice is shown everywhere. -/
def exampleChecked : Checked where
  cfg := exampleConfig
  rank := exampleRank
  height := 4
  wf := exampleConfig_wf
  mandatory := by
    have hno (s : Symbol) (h : (exampleConfig s).isChoice = false) : ¬ (exampleConfig s).isChoice :=
      Bool.eq_false_iff.mp h
    refine exampleConfig_cases (fun _ ↦ ⟨none, by decide +kernel⟩)
      (fun h ↦ absurd h (hno _ (by decide +kernel))) (fun h ↦ absurd h (hno _ (by decide +kernel)))
      (fun h ↦ absurd h (hno _ (by decide +kernel))) fun s hs h ↦ ?_
    simp [hs, Decl.isChoice] at h
  rank_lt s := by
    unfold exampleRank
    split_ifs <;> decide

/-! ### Runs -/

namespace Checked

variable (K : Checked)

/-- `sym_calc_value`, with fuel enough. -/
def ask (s : Symbol) : Calc PUnit := symCalcValue K.cfg (K.height + 1) s

/-- `sym_set_string_value`, with fuel enough. -/
def setValue (s : Symbol) (newval : Bytes) : Calc Bool :=
  Kconfig.setValue K.cfg (K.height + 1) s newval

/-- The bounds that count for a number. -/
def bounds (s : Symbol) (base : Nat) : Calc (Option (Int × Int)) := do
  let prop ← symGetRangeProp K.cfg K.ask s
  match prop with
  | none => pure none
  | some (range, _) => do
    let low ← symGetRangeVal K.ask range.1 base
    let high ← symGetRangeVal K.ask range.2 base
    pure (some (low, high))

/-- The calls of a front end after the parser. -/
def run (cmds : List Command) : Calc PUnit := forM cmds (Command.exec K.cfg (K.height + 1))

variable {K}

theorem fuel_lt (s : Symbol) : K.rank s + 1 < K.height + 1 := Nat.succ_lt_succ (K.rank_lt s)

/-- A symbol is asked for. -/
theorem ensures_ask (h : Solves K.cfg K.rank u μ) (s : Symbol) :
    Ensures (K.ask s) μ fun _ ν ↦ Solves K.cfg K.rank u ν ∧ Grows μ ν ∧ (ν s).valid :=
  h.calc K.wf (fuel_lt s)

theorem reader (h : Solves K.cfg K.rank u μ) :
    Reader K.ask (solution K.cfg K.rank u) (fun t ↦ t.isLogical ∨ t.name.isSome)
      (Solves K.cfg K.rank u) :=
  Solves.reader K.wf h.fit fuel_lt

theorem ensures_bounds (h : Solves K.cfg K.rank u μ) (s : Symbol) (base : Nat) :
    Ensures (K.bounds s base) μ fun p ν ↦ Solves K.cfg K.rank u ν ∧ ∀ low high,
      p = some (low, high) → ∃ lo hi tri,
        firstVisibleIn (solution K.cfg K.rank u) (K.cfg s).ranges = some ((lo, hi), tri) ∧
        low = rangeValIn (solution K.cfg K.rank u) lo base ∧
        high = rangeValIn (solution K.cfg K.rank u) hi base := by
  obtain ⟨-, -, -, -, hranges, -, hbounds⟩ := Decl.forall_mem_symbols.mp (K.wf.readable s)
  simp only [bounds, symGetRangeProp, ensures_bind]
  refine ((reader h).firstVisible hranges h).mono ?_
  rintro prop ν ⟨hprop, h, -⟩
  rcases prop with _ | ⟨⟨lo, hi⟩, tri⟩
  · exact ensures_pure.mpr ⟨h, fun _ _ hp ↦ by cases hp⟩
  · obtain ⟨c, hmem, -⟩ := mem_of_firstVisibleIn hprop.symm
    obtain ⟨hlow, hhigh⟩ := K.wf.range s _ hmem
    have hread (t : Symbol) (ht : t ∈ [lo, hi]) : t.isLogical ∨ t.name.isSome :=
      hbounds t (List.mem_flatMap.mpr ⟨_, hmem, ht⟩)
    simp only [ensures_bind, ensures_pure]
    refine (h.rangeVal K.wf fuel_lt hlow (hread lo (by simp)) base).mono ?_
    rintro _ ξ ⟨rfl, h, -⟩
    refine (h.rangeVal K.wf fuel_lt hhigh (hread hi (by simp)) base).mono ?_
    rintro _ ζ ⟨rfl, h, -⟩
    refine ⟨h, fun low high hp ↦ ?_⟩
    cases hp
    exact ⟨lo, hi, tri, hprop.symm, rfl, rfl⟩

/-- Whatever the calls are, none fails, and what is worked out is right. -/
theorem ensures_run (cmds : List Command) :
    Ensures (K.run cmds) parsed fun _ ν ↦ ∃ u, Solves K.cfg K.rank u ν ∧ u.Fresh := by
  refine (ensures_forM (I := fun ν ↦ ∃ u, Solves K.cfg K.rank u ν ∧ u.Fresh)
    (P := fun _ _ ↦ True) ⟨_, parsed_solves K.wf, fun _ _ _ h ↦ by cases h⟩
    fun cmd _ μ h ↦ ?_).mono fun _ ν h ↦ h.1
  obtain ⟨u, h, hfresh⟩ := h
  cases cmd with
  | ask s =>
    exact (h.calc K.wf (fuel_lt s)).mono fun _ ν hν ↦
      ⟨⟨u, hν.1, hfresh⟩, trivial, fun _ _ ↦ trivial⟩
  | set s newval =>
    simp only [Command.exec, ensures_bind, ensures_pure]
    refine (ensures_setValue K.wf K.mandatory fuel_lt h hfresh s newval).mono ?_
    rintro _ ν ⟨u', h', hfresh', -⟩
    exact ⟨⟨u', h', hfresh'⟩, trivial, fun _ _ ↦ trivial⟩
  | clear =>
    have hkept := (h.solved 0).toKept
    have hsame : Kept K.cfg (settings μ) μ := hkept.resets fun _ ↦ rfl
    exact (hsame.clear K.wf (hkept.fit h.fit K.wf) rfl).mono fun _ ν hν ↦
      ⟨⟨_, hν, hkept.fresh K.wf hfresh⟩, trivial, fun _ _ ↦ trivial⟩

/-- After any calls in any order, the symbols that are valid have the values of the one solution of
the equations for the settings in memory. -/
theorem run_solution (K : Checked) (cmds : List Command) :
    Ensures (K.run cmds) parsed fun _ ν ↦ ∃ u : Settings,
      (∀ s, (u s).tri = (ν s).user.tri ∧ (u s).val = (ν s).user.val ∧
        ((K.cfg s).isChoice = false → (u s).has = (ν s).user.has)) ∧
      ∃ r : Results, (∀ s, r s = resultIn K.cfg u r s) ∧
        (∀ r', (∀ s, r' s = resultIn K.cfg u r' s) → r' = r) ∧
        ∀ s, (ν s).valid → (ν s).toResult = r s := by
  refine (ensures_run cmds).mono ?_
  rintro _ ν ⟨u, h, -⟩
  refine ⟨u, fun s ↦ ?_, solution K.cfg K.rank u, fun s ↦ solution_eq K.wf h.fit s,
    fun r' hr' ↦ solution_unique K.wf h.fit hr', fun s hs ↦ h.result hs⟩
  obtain ⟨htri, hval, hhas⟩ := (h.solved 0).toKept.user s
  exact ⟨htri.symm, hval.symm, fun hc ↦ (hhas (.inr hc)).symm⟩

/-- After any calls, exactly one value of a choice that is `y` is `y`, which is the one that the
choice points to, and no value of another choice is. -/
theorem run_choice (K : Checked) {c : Symbol} (hc : (K.cfg c).isChoice) (cmds : List Command) :
    Ensures (do K.run cmds; K.ask c; forM (K.cfg c).values K.ask) parsed fun _ ν ↦
      (ν c).tri = .yes ∧ (∃ d ∈ (K.cfg c).values, (ν c).val = .sym d ∧
        ∀ m ∈ (K.cfg c).values, (ν m).tri = if m = d then .yes else .no) ∨
      (ν c).tri = .no ∧ ∀ m ∈ (K.cfg c).values, (ν m).tri = .no := by
  rw [ensures_bind]
  refine (ensures_run cmds).mono ?_
  rintro _ μ ⟨u, h, -⟩
  rw [ensures_bind]
  refine (ensures_ask h c).mono ?_
  rintro _ ν ⟨h, -, hvalid⟩
  refine (ensures_forM (I := fun ν ↦ Solves K.cfg K.rank u ν ∧ (ν c).valid)
    (P := fun m ν ↦ (ν m).valid) ⟨h, hvalid⟩ fun m _ ξ hξ ↦ (ensures_ask hξ.1 m).mono ?_).mono ?_
  · rintro _ ζ ⟨h, hgrows, hm⟩
    exact ⟨⟨h, hgrows c hξ.2⟩, hm, hgrows⟩
  · rintro _ ξ ⟨⟨h, hc'⟩, hall, -⟩
    have hresult (s : Symbol) (hs : (ξ s).valid) := h.result hs
    rw [show (ξ c).tri = _ from congrArg Result.tri (hresult c hc'),
      show (ξ c).val = _ from congrArg Result.val (hresult c hc')]
    refine (solution_choice K.wf h.fit hc).imp ?_ ?_
    · rintro ⟨hyes, d, hd, hval, hone⟩
      exact ⟨hyes, d, hd, hval, fun m hm ↦
        (congrArg Result.tri (hresult m (hall m hm))).trans (hone m hm)⟩
    · rintro ⟨hno, hnone⟩
      exact ⟨hno, fun m hm ↦
        (congrArg Result.tri (hresult m (hall m hm))).trans (hnone m hm)⟩

theorem run_choice_between :
    (exampleConfig exampleChoice).isChoice ∧
    Ensures (do
      exampleChecked.run [.set exampleSecond (str "y")]
      exampleChecked.ask exampleChoice
      forM (exampleConfig exampleChoice).values exampleChecked.ask) parsed fun _ ν ↦
      (ν exampleChoice).tri = .yes ∧ (∃ d ∈ (exampleConfig exampleChoice).values,
        (ν exampleChoice).val = .sym d ∧
        ∀ m ∈ (exampleConfig exampleChoice).values, (ν m).tri = if m = d then .yes else .no) ∨
      (ν exampleChoice).tri = .no ∧
        ∀ m ∈ (exampleConfig exampleChoice).values, (ν m).tri = .no :=
  ⟨by decide +kernel, run_choice exampleChecked (by decide +kernel) _⟩

/-- After any calls, a symbol of type boolean or tristate has the value that it has been set to,
where that was accepted. -/
theorem run_set (K : Checked) {s : Symbol} (hs : s.isLogical) (hno : (K.cfg s).isChoice = false)
    (cmds : List Command) (newval : Bytes) :
    Ensures (do K.run cmds; let b ← K.setValue s newval; K.ask s; pure b) parsed fun b ν ↦
      b = true → tristateOf newval = some (ν s).tri := by
  simp only [ensures_bind, ensures_pure]
  refine (ensures_run cmds).mono ?_
  rintro _ μ ⟨u, h, hfresh⟩
  refine (ensures_setValue K.wf K.mandatory fuel_lt h hfresh s newval).mono ?_
  rintro b ν ⟨u', h', -, hlogical, -⟩
  refine (ensures_ask h' s).mono ?_
  rintro _ ξ ⟨h', -, hvalid⟩
  intro hb
  rw [hlogical hb hs hno, ← h'.result hvalid]

theorem run_set_second :
    exampleSecond.isLogical ∧ (exampleConfig exampleSecond).isChoice = false ∧
    Ensures (do
      exampleChecked.run [.ask exampleFirst]
      let b ← exampleChecked.setValue exampleSecond (str "y")
      exampleChecked.ask exampleSecond
      pure b) parsed fun b ν ↦
      b = true → tristateOf (str "y") = some (ν exampleSecond).tri :=
  ⟨by decide, by decide +kernel,
    run_set exampleChecked (by decide) (by decide +kernel) [.ask exampleFirst] (str "y")⟩

/-- After any calls, a symbol with a text that is shown has the text that it has been set to, where
that was accepted: the text is in its range then. -/
theorem run_set_text (K : Checked) {s : Symbol} (hs : s.isText) (cmds : List Command)
    (newval : Bytes) :
    Ensures (do
      K.run cmds
      K.ask s
      let c ← cell s
      let b ← K.setValue s newval
      K.ask s
      pure (c.visible, b)) parsed fun p ν ↦
      p.1 ≠ .no → p.2 = true → (ν s).val = .text (withHexPrefix s newval) := by
  simp only [ensures_bind, ensures_pure, ensures_cell]
  refine (ensures_run cmds).mono ?_
  rintro _ μ ⟨u, h, hfresh⟩
  refine (ensures_ask h s).mono ?_
  rintro _ ν ⟨h, -, hvalid⟩
  have hvisible : (ν s).visible = (solution K.cfg K.rank u s).visible :=
    congrArg Result.visible (h.result hvalid)
  refine (ensures_setValue K.wf K.mandatory fuel_lt h hfresh s newval).mono ?_
  rintro b ξ ⟨u', h', -, -, htext⟩
  refine (ensures_ask h' s).mono ?_
  rintro _ ζ ⟨h', -, hvalid'⟩
  intro hshown hb
  rw [← htext hb hs (hvisible ▸ hshown)]
  exact congrArg Result.val (h'.result hvalid')

theorem run_set_text_number :
    exampleNumber.isText ∧
    Ensures (do
      exampleChecked.run [.ask exampleFirst]
      exampleChecked.ask exampleNumber
      let c ← cell exampleNumber
      let b ← exampleChecked.setValue exampleNumber (str "7f")
      exampleChecked.ask exampleNumber
      pure (c.visible, b)) parsed fun p ν ↦
      p.1 ≠ .no → p.2 = true →
        (ν exampleNumber).val = .text (withHexPrefix exampleNumber (str "7f")) :=
  ⟨by decide, run_set_text exampleChecked (by decide) [.ask exampleFirst] (str "7f")⟩

/-- After any calls, a number is between the bounds that count then, unless these are the wrong way
round. A bound of a number in base sixteen is written without a sign, so it must not be negative. -/
theorem run_range (K : Checked) {s : Symbol} {base : Nat} (hbase : baseOf s.type = some base)
    (cmds : List Command) :
    Ensures (do
      K.run cmds
      let p ← K.bounds s base
      K.ask s
      let c ← cell s
      let t ← textOf c.val
      pure (p, strtoll base t)) parsed fun q _ ↦ ∀ low high, q.1 = some (low, high) →
        low ≤ high → (s.type = .hex → 0 ≤ low) → low ≤ q.2 ∧ q.2 ≤ high := by
  have htext := isText_of_baseOf hbase
  simp only [ensures_bind, ensures_cell]
  refine (ensures_run cmds).mono ?_
  rintro _ μ ⟨u, h, -⟩
  refine (ensures_bounds h s base).mono ?_
  rintro p ν ⟨h, hp⟩
  refine (ensures_ask h s).mono ?_
  rintro _ ξ ⟨h, -, hvalid⟩
  obtain ⟨t, ht⟩ : ∃ t, (solution K.cfg K.rank u s).val = .text t :=
    ⟨_, by rw [solution_eq K.wf h.fit, resultIn_of_isText _ htext]⟩
  have hval : (ξ s).val = .text t := by rw [← ht, ← h.result hvalid]
  rw [hval, textOf, ensures_pure, ensures_pure]
  intro low high hbounds hle hhex
  obtain ⟨lo, hi, tri, hrange, rfl, rfl⟩ := hp low high hbounds
  obtain ⟨t', ht', hmem⟩ := solution_mem_range K.wf h.fit hbase hrange hle hhex
  rw [ht] at ht'
  cases ht'
  exact hmem

theorem run_range_number :
    Ensures (do
      exampleChecked.run [.ask exampleFirst]
      let p ← exampleChecked.bounds exampleNumber 16
      exampleChecked.ask exampleNumber
      let c ← cell exampleNumber
      let t ← textOf c.val
      pure (p, strtoll 16 t)) parsed fun q _ ↦ ∀ low high, q.1 = some (low, high) →
        low ≤ high → (exampleNumber.type = .hex → 0 ≤ low) → low ≤ q.2 ∧ q.2 ≤ high :=
  run_range exampleChecked (by decide) [.ask exampleFirst]

end Checked

end MotionPie.Support.Kconfig
