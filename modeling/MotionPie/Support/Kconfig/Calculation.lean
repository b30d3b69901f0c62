import MotionPie.Support.Kconfig.Solution

/-!
# `sym_calc_value` works the solution out

Whatever the order is in which values are asked for, a symbol that is valid has the value of the
solution. A call for one symbol leaves those alone that stand above it, since these can be in the
middle of their own calculation; only what is visible of the values of a choice is written by the
choice, and that happens before one of them is valid.
-/

namespace MotionPie.Support.Kconfig

open Base

variable {cfg : Config} {rank : Symbol → Nat} {u : Settings} {R : Nat} {μ ν ξ : Memory}
  {s t c m : Symbol}

/-! ### What the memory goes through -/

@[simp] theorem ensures_cell {Q : Cell → Memory → Prop} :
    Ensures (cell s) μ Q ↔ Q (μ s) μ := by
  simp [cell]

@[simp] theorem ensures_store {f : Cell → Cell} {Q : PUnit → Memory → Prop} :
    Ensures (store s f) μ Q ↔ Q ⟨⟩ (Function.update μ s (f (μ s))) := ensures_modify

@[simp] theorem ensures_doIf {p : Prop} [Decidable p] {a : Calc PUnit}
    {Q : PUnit → Memory → Prop} :
    Ensures (doIf p a) μ Q ↔ (p → Ensures a μ Q) ∧ (¬ p → Q ⟨⟩ μ) := by
  by_cases hp : p <;> simp [doIf, hp]

/-- Symbols that are valid stay valid. -/
def Grows (μ ν : Memory) : Prop := ∀ s, (μ s).valid → (ν s).valid

theorem Grows.refl (μ : Memory) : Grows μ μ := fun _ h ↦ h

theorem Grows.trans (h : Grows μ ν) (h' : Grows ν ξ) : Grows μ ξ := fun s hs ↦ h' s (h s hs)

/-- A symbol is left alone, but for what its choice writes when that is worked out. -/
def Same (cfg : Config) (μ ν : Memory) (s : Symbol) : Prop :=
  ν s = μ s ∨ ∃ c, (cfg s).choice = some c ∧ (μ c).valid = false ∧
    ∃ visible write, ν s = { μ s with visible := visible, write := write }

theorem Same.trans (h : Same cfg μ ν s) (hg : Grows μ ν) (h' : Same cfg ν ξ s) :
    Same cfg μ ξ s := by
  rcases h' with h' | ⟨c, hc, hvalid, visible, write, h'⟩
  · rw [Same, h']
    exact h
  · have hvalid' : (μ c).valid = false := by
      rw [Bool.eq_false_iff] at hvalid ⊢
      exact fun h ↦ hvalid (hg c h)
    right
    refine ⟨c, hc, hvalid', visible, write, ?_⟩
    rcases h with h | ⟨_, _, _, _, _, h⟩ <;> rw [h', h]

/-- Where the choice is valid, nothing of a symbol changes. -/
theorem Same.eq (h : Same cfg μ ν s) (hc : ∀ c, (cfg s).choice = some c → (μ c).valid) :
    ν s = μ s := by
  rcases h with h | ⟨c, hchoice, hvalid, -⟩
  · exact h
  · rw [hc c hchoice] at hvalid
    cases hvalid

theorem Same.valid (h : Same cfg μ ν s) : (ν s).valid = (μ s).valid := by
  rcases h with h | ⟨_, _, _, _, _, h⟩ <;> rw [h]

/-- What a call does to the symbols from a rank on. -/
structure Step (cfg : Config) (rank : Symbol → Nat) (R : Nat) (μ ν : Memory) : Prop where
  grows : Grows μ ν
  same : ∀ s, R ≤ rank s → Same cfg μ ν s

theorem Step.refl (cfg : Config) (rank : Symbol → Nat) (R : Nat) (μ : Memory) :
    Step cfg rank R μ μ := ⟨Grows.refl μ, fun _ _ ↦ .inl rfl⟩

theorem Step.trans (h : Step cfg rank R μ ν) (h' : Step cfg rank R ν ξ) : Step cfg rank R μ ξ :=
  ⟨h.grows.trans h'.grows, fun s hs ↦ (h.same s hs).trans h.grows (h'.same s hs)⟩

/-- What calculations never change, and what they have in memory before a symbol is valid. -/
structure Kept (cfg : Config) (u : Settings) (μ : Memory) : Prop where
  constant : ∀ s, s = .yes ∨ s = .mod ∨ s = .no →
    (μ s).valid ∧ ∀ r, (μ s).toResult = resultIn cfg u r s
  user : ∀ s, (μ s).user.tri = (u s).tri ∧ (μ s).user.val = (u s).val ∧
    ((μ s).valid = false ∨ (cfg s).isChoice = false → (μ s).user.has = (u s).has)
  value : ∀ s, (cfg s).isChoiceValue → (μ s).dirDep = .no ∧ (μ s).revDep = .no
  other : ∀ s, s.isLogical = false → s.isText = false →
    (μ s).visible = .no ∧ (μ s).dirDep = .no ∧ (μ s).revDep = .no

/-- A symbol has the value that it is to have. -/
structure Done (cfg : Config) (v : Results) (μ : Memory) (s : Symbol) : Prop where
  result : (μ s).toResult = v s
  choice : ∀ c, (cfg s).choice = some c → (μ c).valid
  write : (cfg s).choice = none → (cfg s).auto = false → s.isLogical || s.isText →
    (v s).visible ≠ .no → (μ s).write
  values : (cfg s).isChoice → (v s).tri = .yes → (v s).visible ≠ .no →
    ∀ m ∈ (cfg s).values, visibleIn cfg v m ≠ .no → (μ m).write

/-- Below a rank all symbols that are valid have the value that they are to have. -/
structure Solved (cfg : Config) (rank : Symbol → Nat) (u : Settings) (R : Nat) (μ : Memory) :
    Prop extends Kept cfg u μ where
  done : ∀ s, (μ s).valid → rank s < R → Done cfg (solution cfg rank u) μ s

/-! ### Reading values -/

section Reading

variable {again : Symbol → Calc PUnit} {w : Results} {S : Symbol → Prop} {I : Memory → Prop}

/-- While `I` holds, the symbols of `S` can be asked for, and have the values `w` then. -/
structure Reader (again : Symbol → Calc PUnit) (w : Results) (S : Symbol → Prop)
    (I : Memory → Prop) : Prop where
  run : ∀ t μ, S t → I μ → Ensures (again t) μ fun _ ν ↦ I ν ∧ Grows μ ν ∧ (ν t).valid
  tri : ∀ t μ, S t → I μ → (μ t).valid → (μ t).tri = (w t).tri
  logical : ∀ t, S t → t.isLogical → (w t).tri ≠ .mod
  text : ∀ t μ, S t → I μ → (μ t).valid → t.isLogical = false →
    ∃ x, (μ t).val = .text x ∧ (w t).val = .text x

theorem Reader.symGetStringValue (h : Reader again w S I) (ht : S t) (hI : I μ)
    (hvalid : (μ t).valid) :
    Ensures (symGetStringValue t) μ fun x ν ↦ x = textIn w t ∧ ν = μ := by
  simp only [Kconfig.symGetStringValue, ensures_bind, ensures_cell, textIn]
  by_cases hlogical : t.isLogical
  · rw [if_pos hlogical, if_pos hlogical, h.tri t μ ht hI hvalid,
      if_neg (h.logical t ht hlogical), ensures_pure]
    exact ⟨rfl, rfl⟩
  · rw [if_neg hlogical, if_neg hlogical]
    obtain ⟨x, hμ, hw⟩ := h.text t μ ht hI hvalid (by simpa using hlogical)
    rw [hμ, hw, textOf, ensures_pure]
    exact ⟨rfl, rfl⟩

theorem Reader.exprCalcValue (h : Reader again w S I) {e : Expr} (he : ∀ t ∈ e.symbols, S t)
    (hI : I μ) :
    Ensures (exprCalcValue again e) μ fun a ν ↦
      a = e.valueIn w ∧ I ν ∧ Grows μ ν ∧ ∀ t ∈ e.symbols, (ν t).valid := by
  induction e generalizing μ with
  | symbol t =>
    have ht := he t (List.mem_singleton_self t)
    simp only [Kconfig.exprCalcValue, ensures_bind, ensures_cell, ensures_pure]
    refine (h.run t μ ht hI).mono ?_
    rintro _ ν ⟨hν, hg, hvalid⟩
    refine ⟨h.tri t ν ht hν hvalid, hν, hg, fun x hx ↦ ?_⟩
    rw [List.mem_singleton.mp hx]
    exact hvalid
  | not e ih =>
    simp only [Kconfig.exprCalcValue, ensures_bind, ensures_pure]
    refine (ih he hI).mono ?_
    rintro a ν ⟨ha, hrest⟩
    refine ⟨?_, hrest⟩
    rw [ha, Expr.valueIn]
  | comp equal t t' =>
    have ht := he t List.mem_cons_self
    have ht' := he t' (List.mem_cons_of_mem _ (List.mem_singleton_self t'))
    simp only [Kconfig.exprCalcValue, ensures_bind, ensures_pure]
    refine (h.run t μ ht hI).mono ?_
    rintro _ ν ⟨hν, hg, hvalid⟩
    refine (h.run t' ν ht' hν).mono ?_
    rintro _ ξ ⟨hξ, hg', hvalid'⟩
    refine (h.symGetStringValue ht hξ (hg' t hvalid)).mono ?_
    rintro x _ ⟨hx, hsame⟩
    rw [hsame]
    refine (h.symGetStringValue ht' hξ hvalid').mono ?_
    rintro y _ ⟨hy, hsame⟩
    rw [hsame, hx, hy]
    refine ⟨rfl, hξ, hg.trans hg', fun z hz ↦ ?_⟩
    rcases List.mem_cons.mp hz with rfl | hz
    · exact hg' z hvalid
    · rw [List.mem_singleton.mp hz]
      exact hvalid'
  | two j a b iha ihb =>
    rw [Expr.symbols, List.forall_mem_append] at he
    simp only [Kconfig.exprCalcValue, ensures_bind, ensures_pure]
    refine (iha he.1 hI).mono ?_
    rintro x ν ⟨hx, hν, hg, hvalid⟩
    refine (ihb he.2 hν).mono ?_
    rintro y ξ ⟨hy, hξ, hg', hvalid'⟩
    refine ⟨?_, hξ, hg.trans hg', ?_⟩
    · rw [hx, hy, Expr.valueIn]
    · rw [Expr.symbols, List.forall_mem_append]
      exact ⟨fun z hz ↦ hg' z (hvalid z hz), hvalid'⟩

theorem Reader.condCalcValue (h : Reader again w S I) {c : Option Expr}
    (hc : ∀ t ∈ condSymbols c, S t) (hI : I μ) :
    Ensures (condCalcValue again c) μ fun a ν ↦
      a = condIn w c ∧ I ν ∧ Grows μ ν ∧ ∀ t ∈ condSymbols c, (ν t).valid := by
  cases c with
  | none => exact ensures_pure.mpr ⟨rfl, hI, Grows.refl μ, fun t ht ↦ by simp [condSymbols] at ht⟩
  | some e => exact h.exprCalcValue hc hI

theorem Reader.firstVisible {α : Type} (h : Reader again w S I) {ps : List (α × Option Expr)}
    (hps : ∀ t ∈ ps.flatMap (fun p ↦ condSymbols p.2), S t) (hI : I μ) :
    Ensures (firstVisible again ps) μ fun a ν ↦ a = firstVisibleIn w ps ∧ I ν ∧ Grows μ ν := by
  induction ps generalizing μ with
  | nil => exact ensures_pure.mpr ⟨rfl, hI, Grows.refl μ⟩
  | cons p ps ih =>
    rw [List.flatMap_cons, List.forall_mem_append] at hps
    simp only [Kconfig.firstVisible, ensures_bind, firstVisibleIn]
    refine (h.condCalcValue hps.1 hI).mono ?_
    rintro a ν ⟨ha, hν, hg, -⟩
    rw [← ha]
    split_ifs with hne
    · exact ensures_pure.mpr ⟨rfl, hν, hg⟩
    · refine (ih hps.2 hν).mono ?_
      rintro b ξ ⟨hb, hξ, hg'⟩
      exact ⟨hb, hξ, hg.trans hg'⟩

theorem Reader.promptVisibility (h : Reader again w S I) {cs : List (Option Expr)}
    (hcs : ∀ t ∈ cs.flatMap condSymbols, S t) (hI : I μ) (tri : Tristate) :
    Ensures (promptVisibility again tri cs) μ fun a ν ↦
      a = promptsIn w tri cs ∧ I ν ∧ Grows μ ν ∧ ∀ t ∈ cs.flatMap condSymbols, (ν t).valid := by
  induction cs generalizing μ tri with
  | nil => exact ensures_pure.mpr ⟨rfl, hI, Grows.refl μ, fun _ ht ↦ absurd ht (by simp)⟩
  | cons c cs ih =>
    rw [List.flatMap_cons, List.forall_mem_append] at hcs
    simp only [Kconfig.promptVisibility, ensures_bind, promptsIn]
    refine (h.condCalcValue hcs.1 hI).mono ?_
    rintro a ν ⟨ha, hν, hg, hvalid⟩
    rw [ha]
    refine (ih hcs.2 hν _).mono ?_
    rintro b ξ ⟨hb, hξ, hg', hvalid'⟩
    refine ⟨hb, hξ, hg.trans hg', ?_⟩
    rw [List.flatMap_cons, List.forall_mem_append]
    exact ⟨fun t ht ↦ hg' t (hvalid t ht), hvalid'⟩

end Reading

end MotionPie.Support.Kconfig
