import MotionPie.Support.Kconfig.Calculation

/-!
# The calculation of one symbol

From the point on where a symbol is marked as valid, its calculation writes the fields of the
symbol itself and, for a choice, of its values. The calls in between work out symbols that stand
below it.
-/

namespace MotionPie.Support.Kconfig

open Base

/-- What is asked for in the calculation of a symbol stands below it, and has a text or no need of
one. -/
def Below (rank : Symbol → Nat) (s t : Symbol) : Prop :=
  rank t < rank s ∧ (t.isLogical ∨ t.name.isSome)

/-- What the calls in the calculation of a symbol do. -/
structure Calls (cfg : Config) (rank : Symbol → Nat) (u : Settings) (again : Symbol → Calc PUnit)
    (s : Symbol) : Prop where
  below : ∀ t μ, rank t < rank s → Solved cfg rank u (rank s) μ →
    Ensures (again t) μ fun _ ν ↦
      Solved cfg rank u (rank s) ν ∧ Step cfg rank (rank s) μ ν ∧ (ν t).valid
  valid : ∀ t μ, (μ t).valid → Ensures (again t) μ fun _ ν ↦ ν = μ

/-- All fields of a symbol are known, but for the flag `SYMBOL_WRITE`, which may be up already. -/
def Known (known c : Cell) : Prop := ∃ w : Bool, (known.write → w) ∧ c = { known with write := w }

/-- The calculation of `s`, which has begun in the memory `μ`, has come to `ν`. The fields of `s`
are those in `x`, and the fields of its values those in `η`. -/
structure Inside (cfg : Config) (rank : Symbol → Nat) (u : Settings) (s : Symbol) (μ : Memory)
    (x : Cell) (η ν : Memory) : Prop where
  solved : Solved cfg rank u (rank s) ν
  grows : Grows μ ν
  same : ∀ t, rank s ≤ rank t → t ≠ s → Same cfg μ ν t
  cell : Known x (ν s)
  values : ∀ t ∈ (cfg s).values, Known (η t) (ν t)
  valid : x.valid
  choice : ∀ c, (cfg s).choice = some c → (ν c).valid

variable {cfg : Config} {rank : Symbol → Nat} {u : Settings} {again : Symbol → Calc PUnit}
  {s t : Symbol} {μ η ν ξ : Memory} {x y c : Cell}

/-- A value below the symbol that is valid is that of the solution. -/
theorem Solved.result (h : Solved cfg rank u (rank s) ν) (ht : rank t < rank s)
    (hvalid : (ν t).valid) : (ν t).toResult = solution cfg rank u t :=
  (h.done t hvalid ht).result

/-- A text below the symbol can be read. -/
theorem exists_solution_text (wf : WellFormed cfg rank) (hu : u.Fit cfg)
    (hc : (cfg t).isChoice = false) (ht : t.isLogical ∨ t.name.isSome) :
    ∃ y, (solution cfg rank u t).val = .text y := by
  rw [solution_eq wf hu]
  exact exists_text _ hc ht

theorem isChoice_of_not_isLogical (wf : WellFormed cfg rank) (ht : t.isLogical = false) :
    (cfg t).isChoice = false := by
  rw [Bool.eq_false_iff]
  intro hc
  rw [(wf.choice t hc).1] at ht
  cases ht

/-- What stands below a symbol can be read where calls keep the symbols below solved. -/
theorem Calls.reader {I : Memory → Prop} (wf : WellFormed cfg rank) (hu : u.Fit cfg)
    (ha : Calls cfg rank u again s) (hI : ∀ ν, I ν → Solved cfg rank u (rank s) ν)
    (hstep : ∀ ν ξ, I ν → Solved cfg rank u (rank s) ξ → Step cfg rank (rank s) ν ξ → I ξ) :
    Reader again (solution cfg rank u) (Below rank s) I where
  run t ν ht hν := (ha.below t ν ht.1 (hI ν hν)).mono fun _ ξ h ↦
    ⟨hstep ν ξ hν h.1 h.2.1, h.2.1.grows, h.2.2⟩
  tri t ν ht hν hvalid := congrArg Result.tri ((hI ν hν).result ht.1 hvalid)
  logical t ht hlogical := by
    rw [solution_eq wf hu]
    exact resultIn_ne_mod _ hlogical
  text t ν ht hν hvalid hlogical := by
    obtain ⟨y, hy⟩ := exists_solution_text (u := u) wf hu (isChoice_of_not_isLogical wf hlogical)
      ht.2
    exact ⟨y, by rw [← hy, ← (hI ν hν).result ht.1 hvalid], hy⟩

/-! ### What is known of the fields -/

theorem Known.refl (c : Cell) : Known c c := ⟨c.write, id, rfl⟩

theorem Known.valid (h : Known x c) : c.valid = x.valid := by
  obtain ⟨w, -, rfl⟩ := h
  rfl

theorem Known.visible (h : Known x c) : c.visible = x.visible := by
  obtain ⟨w, -, rfl⟩ := h
  rfl

/-- The flag is up, when that is known. -/
theorem Known.write (h : Known x c) (hx : x.write) : c.write := by
  obtain ⟨w, hw, rfl⟩ := h
  exact hw hx

/-- Less may be known about the flag. -/
theorem Known.trans {y : Cell} (h : Known y x) (h' : Known x c) : Known y c := by
  obtain ⟨w, hw, rfl⟩ := h
  obtain ⟨w', hw', rfl⟩ := h'
  exact ⟨w', fun hy ↦ hw' (hw hy), rfl⟩

/-- The flag is put up. -/
theorem Known.mark (h : Known x c) : Known { x with write := true } { c with write := true } := by
  obtain ⟨w, -, rfl⟩ := h
  exact ⟨true, id, rfl⟩

/-- A value of a choice stands above it, and is no choice. -/
theorem WellFormed.of_mem_values (wf : WellFormed cfg rank) (ht : t ∈ (cfg s).values) :
    rank s < rank t ∧ t ≠ s ∧ t.isLogical ∧ (cfg t).isChoice = false := by
  have hchoice := (wf.choice_iff s t).mpr ht
  have hlt := wf.choice_lt hchoice
  refine ⟨hlt, by rintro rfl; exact lt_irrefl _ hlt, (wf.value s t hchoice).1, ?_⟩
  rw [Bool.eq_false_iff]
  intro hc
  rw [(wf.choice t hc).2.1] at hchoice
  cases hchoice

namespace Inside

/-- Calls keep what is known inside the calculation. -/
theorem step (wf : WellFormed cfg rank) (h : Inside cfg rank u s μ x η ν)
    (hξ : Solved cfg rank u (rank s) ξ) (hstep : Step cfg rank (rank s) ν ξ) :
    Inside cfg rank u s μ x η ξ where
  solved := hξ
  grows := h.grows.trans hstep.grows
  same t ht hne := (h.same t ht hne).trans h.grows (hstep.same t ht)
  cell := by
    rw [(hstep.same s (Nat.le_refl _)).eq h.choice]
    exact h.cell
  values t ht := by
    have hlt := (wf.of_mem_values ht).1
    rw [(hstep.same t hlt.le).eq fun c hc ↦ ?_]
    · exact h.values t ht
    · rw [(wf.choice_iff s t).mpr ht] at hc
      rw [← Option.some.inj hc, h.cell.valid]
      exact h.valid
  valid := h.valid
  choice c hc := hstep.grows c (h.choice c hc)

theorem reader (wf : WellFormed cfg rank) (hu : u.Fit cfg) (ha : Calls cfg rank u again s) :
    Reader again (solution cfg rank u) (Below rank s) (Inside cfg rank u s μ x η) :=
  ha.reader wf hu (fun _ h ↦ h.solved) fun _ _ h hξ hstep ↦ h.step wf hξ hstep

/-- Less may be known of the flag. -/
theorem weaken (h : Inside cfg rank u s μ x η ν) (hy : Known y x) :
    Inside cfg rank u s μ y η ν where
  solved := h.solved
  grows := h.grows
  same := h.same
  cell := hy.trans h.cell
  values := h.values
  valid := by
    rw [← hy.valid]
    exact h.valid
  choice := h.choice

end Inside

/-- How the calculation may change the fields of a symbol. -/
structure Edit (cfg : Config) (t : Symbol) (c x : Cell) : Prop where
  tri : x.user.tri = c.user.tri
  val : x.user.val = c.user.val
  has : (cfg t).isChoice = false → x.user.has = c.user.has
  valid : c.valid → x.valid
  value : (cfg t).isChoiceValue →
    x.dirDep = c.dirDep ∧ x.revDep = c.revDep ∧ (c.write → x.write)

/-- A store to a symbol that is valid, or is no choice, keeps what is known of those below. -/
theorem Solved.store (wf : WellFormed cfg rank) (h : Solved cfg rank u (rank s) ν)
    (hst : rank s ≤ rank t) (hconst : t ≠ .yes ∧ t ≠ .mod ∧ t ≠ .no)
    (hother : t.isLogical = false → t.isText = false →
      x.visible = (ν t).visible ∧ x.dirDep = (ν t).dirDep ∧ x.revDep = (ν t).revDep)
    (hvalid : x.valid ∨ (cfg t).isChoice = false) (hx : Edit cfg t (ν t) x) :
    Solved cfg rank u (rank s) (Function.update ν t x) := by
  have hsame {a : Symbol} (ha : a ≠ t) : Function.update ν t x a = ν a :=
    Function.update_of_ne ha _ _
  have hedit (a : Symbol) : Edit cfg a (ν a) (Function.update ν t x a) := by
    by_cases hat : a = t
    · subst hat
      rw [Function.update_self]
      exact hx
    · rw [hsame hat]
      exact ⟨rfl, rfl, fun _ ↦ rfl, id, fun _ ↦ ⟨rfl, rfl, id⟩⟩
  refine ⟨⟨fun a ha ↦ ?_, fun a ↦ ?_, fun a ha ↦ ?_, fun a hl htext ↦ ?_⟩, fun a ha hlt ↦ ?_⟩
  · rw [hsame (by rintro rfl; tauto)]
    exact h.constant a ha
  · obtain ⟨htri, hval, hhas⟩ := h.user a
    refine ⟨(hedit a).tri.trans htri, (hedit a).val.trans hval, fun hcase ↦ ?_⟩
    by_cases hchoice : (cfg a).isChoice = false
    · rw [(hedit a).has hchoice]
      exact hhas (.inr hchoice)
    · have hat : a ≠ t := by
        rintro rfl
        rw [Function.update_self] at hcase
        simp_all
      rw [hsame hat] at hcase ⊢
      exact hhas hcase
  · obtain ⟨hdir, hrev, -⟩ := (hedit a).value ha
    rw [hdir, hrev]
    exact h.value a ha
  · by_cases hat : a = t
    · subst hat
      obtain ⟨hvis, hdir, hrev⟩ := hother hl htext
      rw [Function.update_self, hvis, hdir, hrev]
      exact h.other a hl htext
    · rw [hsame hat]
      exact h.other a hl htext
  · have hat : a ≠ t := by
      rintro rfl
      exact absurd hlt (by omega)
    rw [hsame hat] at ha
    obtain ⟨hresult, hchoice, hwrite, hvalues⟩ := h.done a ha hlt
    refine ⟨by rw [hsame hat, hresult], fun c hc ↦ (hedit c).valid (hchoice c hc),
      by rwa [hsame hat], ?_⟩
    · intro hc htri hvis m hm hshown
      refine ((hedit m).value ?_).2.2 (hvalues hc htri hvis m hm hshown)
      rw [Decl.isChoiceValue, (wf.choice_iff a m).mpr hm]
      rfl

namespace Inside

/-- A store to the symbol itself. -/
theorem store (wf : WellFormed cfg rank) (h : Inside cfg rank u s μ x η ν)
    (hs : s.isLogical ∨ s.isText) (hc : Edit cfg s (ν s) c) (hy : Known y c) :
    Inside cfg rank u s μ y η (Function.update ν s c) where
  solved := by
    refine h.solved.store wf (Nat.le_refl _) (Symbol.not_constant hs)
      (fun hl ht ↦ absurd hs (by simp [hl, ht])) (.inl (hc.valid ?_)) hc
    rw [h.cell.valid]
    exact h.valid
  grows a ha := by
    by_cases has : a = s
    · rw [has, Function.update_self]
      refine hc.valid ?_
      rw [h.cell.valid]
      exact h.valid
    · rw [Function.update_of_ne has]
      exact h.grows a ha
  same t ht hne := by
    rw [Same, Function.update_of_ne hne]
    exact h.same t ht hne
  cell := by
    rw [Function.update_self]
    exact hy
  values t ht := by
    rw [Function.update_of_ne (wf.of_mem_values ht).2.1]
    exact h.values t ht
  valid := by
    rw [← hy.valid]
    refine hc.valid ?_
    rw [h.cell.valid]
    exact h.valid
  choice a ha := by
    rw [Function.update_of_ne (by rintro rfl; exact absurd (wf.choice_lt ha) (lt_irrefl _))]
    exact h.choice a ha

/-- A store that has nothing to do with the flag. -/
theorem put (wf : WellFormed cfg rank) (h : Inside cfg rank u s μ x η ν)
    (hs : s.isLogical ∨ s.isText) (f : Cell → Cell) (hedit : ∀ c, Edit cfg s c (f c))
    (hf : ∀ c w, f { c with write := w } = { f c with write := w })
    (hwrite : ∀ c, (f c).write = c.write) :
    Inside cfg rank u s μ (f x) η (Function.update ν s (f (ν s))) := by
  refine h.store wf hs (hedit _) ?_
  obtain ⟨w, hw, hcell⟩ := h.cell
  exact ⟨w, by rwa [hwrite], by rw [hcell, hf]⟩

/-- A store to a value of a choice, whose calculation has begun. -/
theorem storeValue (wf : WellFormed cfg rank) (h : Inside cfg rank u s μ x η ν)
    (hμ : (μ s).valid = false) (ht : t ∈ (cfg s).values) (visible : Tristate) (write : Bool)
    (hwrite : (ν t).write → write) (hy : Known y { ν t with visible := visible, write := write }) :
    Inside cfg rank u s μ x (Function.update η t y)
      (Function.update ν t { ν t with visible := visible, write := write }) := by
  have hchoice := (wf.choice_iff s t).mpr ht
  obtain ⟨hlt, hne, hlogical, hno⟩ := wf.of_mem_values ht
  refine ⟨?_, fun a ha ↦ ?_, fun a ha hne ↦ ?_, ?_, fun a ha ↦ ?_, h.valid, fun a ha ↦ ?_⟩
  · exact h.solved.store wf hlt.le (Symbol.not_constant (.inl hlogical))
      (fun hl ↦ absurd hlogical (by simp [hl])) (.inr hno)
      ⟨rfl, rfl, fun _ ↦ rfl, id, fun _ ↦ ⟨rfl, rfl, hwrite⟩⟩
  · by_cases hat : a = t
    · rw [hat, Function.update_self]
      exact hat ▸ h.grows a ha
    · rw [Function.update_of_ne hat]
      exact h.grows a ha
  · have hsame := h.same a ha hne
    by_cases hat : a = t
    · subst hat
      rw [Same, Function.update_self]
      refine .inr ⟨s, hchoice, hμ, visible, write, ?_⟩
      rcases hsame with hsame | ⟨_, _, _, _, _, hsame⟩ <;> rw [hsame]
    · rw [Same, Function.update_of_ne hat]
      exact hsame
  · rw [Function.update_of_ne hne.symm]
    exact h.cell
  · by_cases hat : a = t
    · rw [hat, Function.update_self, Function.update_self]
      exact hy
    · rw [Function.update_of_ne hat, Function.update_of_ne hat]
      exact h.values a ha
  · have hat : a ≠ t := by
      rintro rfl
      exact absurd (wf.choice_lt ha) (not_lt.mpr hlt.le)
    rw [Function.update_of_ne hat]
    exact h.choice a ha

end Inside

/-! ### The visibility -/

theorem below_of_mem (wf : WellFormed cfg rank) : ∀ t ∈ (cfg s).symbols, Below rank s t :=
  fun t ht ↦ ⟨wf.below s t ht, wf.readable s t ht⟩

/-- The prompts are evaluated while the choice of the symbol can be worked out still. -/
theorem ensures_promptVisibility (wf : WellFormed cfg rank) (hu : u.Fit cfg)
    (ha : Calls cfg rank u again s) (hsolved : Solved cfg rank u (rank s) ν)
    (hvalid : (ν s).valid) (hgrows : Grows μ ν)
    (hsame : ∀ t, rank s ≤ rank t → t ≠ s → Same cfg μ ν t) :
    Ensures (promptVisibility again .no (cfg s).prompts) ν fun a ξ ↦
      a.toYes = visibleIn cfg (solution cfg rank u) s ∧ ∃ visible write,
        Inside cfg rank u s μ { ν s with visible := visible, write := write } ν ξ := by
  have hreader := ha.reader wf hu (I := fun ξ ↦ Solved cfg rank u (rank s) ξ ∧
    Step cfg rank (rank s) ν ξ) (fun _ h ↦ h.1) fun _ _ h hξ hstep ↦ ⟨hξ, h.2.trans hstep⟩
  obtain ⟨hprompts, -⟩ := Decl.forall_mem_symbols.mp (below_of_mem wf (s := s))
  refine (hreader.promptVisibility hprompts ⟨hsolved, Step.refl cfg rank (rank s) ν⟩ .no).mono ?_
  rintro a ξ ⟨hval, ⟨hξ, hstep⟩, -, hread⟩
  refine ⟨by rw [hval, visibleIn], ?_⟩
  have hcell : ∃ visible write, ξ s = { ν s with visible := visible, write := write } := by
    rcases hstep.same s (Nat.le_refl _) with h | ⟨_, _, _, visible, write, h⟩
    · exact ⟨(ν s).visible, (ν s).write, h⟩
    · exact ⟨visible, write, h⟩
  obtain ⟨visible, write, hcell⟩ := hcell
  refine ⟨visible, write, hξ, hgrows.trans hstep.grows,
    fun t ht hne ↦ (hsame t ht hne).trans hgrows (hstep.same t ht), ?_, fun t ht ↦ ?_, hvalid,
    fun c hc ↦ ?_⟩
  · rw [hcell]
    exact Known.refl _
  · rw [(hstep.same t (wf.of_mem_values ht).1.le).eq fun c hc ↦ ?_]
    · exact Known.refl _
    · rw [(wf.choice_iff s t).mpr ht] at hc
      rwa [← Option.some.inj hc]
  · obtain ⟨-, -, -, hne, hall⟩ := wf.value c s hc
    obtain ⟨p, hp⟩ := List.exists_mem_of_ne_nil _ hne
    obtain ⟨e, rfl, he, -⟩ := hall p hp
    exact hread c (List.mem_flatMap.mpr ⟨_, hp, Expr.mem_symbols_of_dependsSymbol he⟩)

/-- The fields of a symbol once its visibility is known. -/
def seen (cfg : Config) (v : Results) (s : Symbol) (c : Cell) : Cell :=
  { c with visible := visibleIn cfg v s, dirDep := dirDepIn cfg v s, revDep := revDepIn cfg v s }

/-- The value of `rev_dep`. -/
theorem Reader.revDepValue {w : Results} {S : Symbol → Prop} {I : Memory → Prop}
    (h : Reader again w S I) (hs : ∀ t ∈ condSymbols (cfg s).revDep, S t)
    (hc : (cfg s).isChoiceValue = false) (hI : I μ) :
    Ensures (revDepValue cfg again s) μ fun a ν ↦ a = revDepIn cfg w s ∧ I ν := by
  unfold Kconfig.revDepValue revDepIn
  rw [if_neg (by simp [hc])]
  cases hd : (cfg s).revDep with
  | none => exact ensures_pure.mpr ⟨rfl, hI⟩
  | some e =>
    rw [hd] at hs
    simp only [ensures_bind, ensures_pure, Option.elim_some]
    refine (h.exprCalcValue hs hI).mono ?_
    rintro a ν ⟨ha, hν, -⟩
    exact ⟨by rw [ha], hν⟩

open Inside in
/-- The visibility of the symbol itself. -/
theorem ensures_symCalcVisibility (wf : WellFormed cfg rank) (hu : u.Fit cfg)
    (ha : Calls cfg rank u again s) (hs : s.isLogical ∨ s.isText)
    (hsolved : Solved cfg rank u (rank s) ν) (hvalid : (ν s).valid) (hgrows : Grows μ ν)
    (hsame : ∀ t, rank s ≤ rank t → t ≠ s → Same cfg μ ν t) :
    Ensures (symCalcVisibility cfg again s) ν fun _ ξ ↦
      Inside cfg rank u s μ
        (seen cfg (solution cfg rank u) s { ν s with write := false }) ν ξ := by
  simp only [symCalcVisibility, ensures_bind, ensures_store, ensures_doIf]
  refine (ensures_promptVisibility wf hu ha hsolved hvalid hgrows hsame).mono ?_
  rintro a ξ ⟨hvis, visible, write, h⟩
  have h1 := (h.put wf hs (fun c ↦ { c with visible := a.toYes })
    (fun _ ↦ ⟨rfl, rfl, fun _ ↦ rfl, id, fun _ ↦ ⟨rfl, rfl, id⟩⟩) (fun _ _ ↦ rfl)
    fun _ ↦ rfl).weaken (y := { ν s with visible := a.toYes, write := false })
    ⟨write, Bool.noConfusion, rfl⟩
  rw [hvis] at h1
  refine ⟨fun hno ↦ ?_, fun hvalue ↦ ?_⟩
  · have hno' : (cfg s).isChoiceValue = false := by simpa using hno
    obtain ⟨-, hdir, hrev, -⟩ := Decl.forall_mem_symbols.mp (below_of_mem wf (s := s))
    rw [hvis]
    refine ((reader wf hu ha).condCalcValue hdir h1).mono ?_
    rintro b ζ ⟨hb, h1, -, -⟩
    have h2 := h1.put wf hs (fun c ↦ { c with dirDep := b.toYes })
      (fun _ ↦ ⟨rfl, rfl, fun _ ↦ rfl, id, fun h ↦ absurd h hno⟩) (fun _ _ ↦ rfl) fun _ ↦ rfl
    refine ((reader wf hu ha).revDepValue hrev hno' h2).mono ?_
    rintro d ω ⟨hd, h2⟩
    have h3 := h2.put wf hs (fun c ↦ { c with revDep := d })
      (fun _ ↦ ⟨rfl, rfl, fun _ ↦ rfl, id, fun h ↦ absurd h hno⟩) (fun _ _ ↦ rfl) fun _ ↦ rfl
    have hdirDep : b.toYes = dirDepIn cfg (solution cfg rank u) s := by
      rw [dirDepIn, if_neg hno, hb]
    rw [hdirDep, hd] at h3
    rw [hd]
    exact h3
  · have hvalue' : (cfg s).isChoiceValue = true := by simpa using hvalue
    have hdir : dirDepIn cfg (solution cfg rank u) s = (ν s).dirDep := by
      rw [dirDepIn, if_pos hvalue', (hsolved.value s hvalue').1]
    have hrev : revDepIn cfg (solution cfg rank u) s = (ν s).revDep := by
      rw [revDepIn, if_pos hvalue', (hsolved.value s hvalue').2]
    rw [hvis, seen, hdir, hrev]
    exact h1

end MotionPie.Support.Kconfig
