import MotionPie.Support.Kconfig.OneSymbol

/-!
# The branches of `sym_calc_value`

Each part of the calculation works out what the equations say, from the fields of the symbol as the
parts before it have left them.
-/

namespace MotionPie.Support.Kconfig

open Base

variable {cfg : Config} {rank : Symbol → Nat} {u : Settings} {again : Symbol → Calc PUnit}
  {s t : Symbol} {μ η ν ξ : Memory} {x y c : Cell}

theorem Edit.ofValue (c : Cell) (val : Val) (tri : Tristate) :
    Edit cfg s c { c with val := val, tri := tri } :=
  ⟨rfl, rfl, fun _ ↦ rfl, id, fun _ ↦ ⟨rfl, rfl, id⟩⟩

theorem Edit.ofMark (c : Cell) : Edit cfg s c { c with write := true } :=
  ⟨rfl, rfl, fun _ ↦ rfl, id, fun _ ↦ ⟨rfl, rfl, fun _ ↦ rfl⟩⟩

namespace Inside

/-- The flag may go up. -/
theorem mark (wf : WellFormed cfg rank) (h : Inside cfg rank u s μ x η ν)
    (hs : s.isLogical ∨ s.isText) :
    Inside cfg rank u s μ { x with write := true } η
      (Function.update ν s { ν s with write := true }) :=
  h.store wf hs (Edit.ofMark _) h.cell.mark

/-- The flag goes up under a condition. -/
theorem markIf (wf : WellFormed cfg rank) (h : Inside cfg rank u s μ x η ν)
    (hs : s.isLogical ∨ s.isText) (p : Prop) [Decidable p] :
    Ensures (doIf p (Kconfig.store s fun c ↦ { c with write := true })) ν fun _ ξ ↦
      Inside cfg rank u s μ { x with write := x.write || decide p } η ξ := by
  rw [ensures_doIf, ensures_store]
  refine ⟨fun hp ↦ ?_, fun hp ↦ ?_⟩
  · rw [decide_eq_true hp, Bool.or_true]
    exact h.mark wf hs
  · rw [decide_eq_false hp, Bool.or_false]
    exact h

/-- Less need be known of the flag. -/
theorem unmark {w : Bool} (h : Inside cfg rank u s μ { x with write := w } η ν)
    (hw : x.write → w) : Inside cfg rank u s μ x η ν :=
  h.weaken ⟨w, hw, rfl⟩

end Inside

/-- The default. -/
theorem ensures_defaultTristate (wf : WellFormed cfg rank) (hu : u.Fit cfg)
    (ha : Calls cfg rank u again s) (hs : s.isLogical ∨ s.isText)
    (h : Inside cfg rank u s μ x η ν) :
    Ensures (defaultTristate cfg again s) ν fun a ξ ↦
      a = defaultIn cfg (solution cfg rank u) s ∧ Inside cfg rank u s μ x η ξ := by
  obtain ⟨-, -, -, hdefs, -, hexprs, -⟩ := Decl.forall_mem_symbols.mp (below_of_mem wf (s := s))
  unfold defaultTristate defaultIn
  by_cases hc : (cfg s).isChoice
  · rw [if_pos hc, if_pos hc, ensures_pure]
    exact ⟨rfl, h⟩
  · rw [if_neg hc] at hexprs
    rw [if_neg hc, if_neg hc, ensures_bind]
    refine ((Inside.reader wf hu ha).firstVisible hdefs h).mono ?_
    rintro b ζ ⟨hb, h, -⟩
    cases b with
    | none =>
      rw [← hb, ensures_pure]
      exact ⟨rfl, h⟩
    | some p =>
      obtain ⟨c, hmem, -⟩ := mem_of_firstVisibleIn hb.symm
      have he : ∀ t ∈ p.1.symbols, Below rank s t :=
        fun t ht ↦ hexprs t (List.mem_flatMap.mpr ⟨_, hmem, ht⟩)
      simp only [ensures_bind, ensures_store, ensures_pure]
      have h := (h.mark wf hs).unmark fun _ ↦ rfl
      refine ((Inside.reader wf hu ha).exprCalcValue he h).mono ?_
      rintro d ω ⟨hd, h, -⟩
      refine ⟨?_, h⟩
      rw [hd, ← hb, Option.elim_some]

/-- The value of a symbol of type boolean or tristate. -/
theorem ensures_calcTristate (wf : WellFormed cfg rank) (hu : u.Fit cfg)
    (ha : Calls cfg rank u again s) (hs : s.isLogical ∨ s.isText)
    (h : Inside cfg rank u s μ x η ν) (hvis : x.visible = visibleIn cfg (solution cfg rank u) s)
    (hrev : x.revDep = revDepIn cfg (solution cfg rank u) s) (huser : x.user = u s) :
    Ensures (calcTristate cfg again s) ν fun a ξ ↦
      a = tristateIn cfg u (solution cfg rank u) s ∧ Inside cfg rank u s μ
        { x with write := x.write || decide (x.visible ≠ .no) } η ξ := by
  have hcell {c : Cell} {w : Bool} (hc : Known { x with write := w } c) :
      c.visible = x.visible ∧ c.user = x.user ∧ c.revDep = x.revDep := by
    obtain ⟨_, -, rfl⟩ := hc
    exact ⟨rfl, rfl, rfl⟩
  obtain ⟨hν1, hν2, -⟩ := hcell h.cell
  simp only [calcTristate, tristateIn, ensures_bind, ensures_cell, hν1, hν2]
  refine (h.markIf wf hs ((ν s).visible ≠ .no)).mono fun _ ζ h ↦ ?_
  simp only [hν1] at h
  rw [ensures_ite]
  refine ⟨fun hp ↦ ?_, fun hp ↦ ?_⟩
  · simp only [ensures_bind, ensures_pure, ensures_cell, (hcell h.cell).2.2]
    rw [← hvis, ← hrev, ← huser, if_pos hp]
    exact ⟨rfl, h⟩
  · simp only [ensures_bind, ensures_pure, ensures_cell]
    refine (h.markIf wf hs ((ν s).revDep ≠ .no)).mono fun _ ζ h ↦ ?_
    have h := h.unmark fun hw ↦ by rw [hw, Bool.true_or]
    refine (ensures_defaultTristate wf hu ha hs h).mono ?_
    rintro a ω ⟨hval, h⟩
    rw [(hcell h.cell).2.2, ← hvis, ← hrev, ← huser, if_neg hp, hval]
    exact ⟨rfl, h⟩

/-- The value of a symbol with a text. -/
theorem ensures_calcText (wf : WellFormed cfg rank) (hu : u.Fit cfg)
    (ha : Calls cfg rank u again s) (hs : s.isText)
    (h : Inside cfg rank u s μ x η ν) (hvis : x.visible = visibleIn cfg (solution cfg rank u) s)
    (huser : x.user = u s) :
    Ensures (calcText cfg again s) ν fun a ξ ↦
      a = .text (rawTextIn cfg u (solution cfg rank u) s) ∧ Inside cfg rank u s μ
        { x with write := x.write || decide (x.visible ≠ .no) } η ξ := by
  obtain ⟨-, -, -, hdefs, -, hexprs, -⟩ := Decl.forall_mem_symbols.mp (below_of_mem wf (s := s))
  rw [if_neg (by simp [(wf.of_isText hs).2.1])] at hexprs
  have hcell {c : Cell} (hc : Known x c) : c.visible = x.visible ∧ c.user = x.user := by
    obtain ⟨_, -, rfl⟩ := hc
    exact ⟨rfl, rfl⟩
  obtain ⟨hν1, hν2⟩ := hcell h.cell
  simp only [calcText, rawTextIn, ensures_bind, ensures_cell, hν1, hν2]
  refine (h.markIf wf (.inr hs) ((ν s).visible ≠ .no)).mono fun _ ζ h ↦ ?_
  simp only [hν1] at h
  rw [ensures_ite]
  refine ⟨fun hp ↦ ?_, fun hp ↦ ?_⟩
  · rw [← hvis, ← huser, if_pos hp, ensures_pure]
    rw [huser] at hp
    obtain ⟨y, hy⟩ := hu.text s hs hp.2
    refine ⟨?_, h⟩
    rw [huser, hy]
    rfl
  · rw [← hvis, ← huser, if_neg hp, ensures_bind]
    refine ((Inside.reader wf hu ha).firstVisible hdefs h).mono ?_
    rintro b ω ⟨hb, h, -⟩
    rw [← hb]
    cases hds : b.bind fun p ↦ propGetSymbol p.1 with
    | none =>
      rw [ensures_pure]
      exact ⟨rfl, h⟩
    | some ds =>
      obtain ⟨p, hp, hds⟩ := Option.bind_eq_some_iff.mp hds
      obtain ⟨c, hmem, -⟩ := mem_of_firstVisibleIn (hb.symm.trans hp)
      have hmem' : ds ∈ (cfg s).defaults.flatMap fun p ↦ p.1.symbols := by
        refine List.mem_flatMap.mpr ⟨_, hmem, ?_⟩
        rw [propGetSymbol_eq_some.mp hds]
        exact List.mem_singleton_self ds
      have hbelow := hexprs ds hmem'
      have h := (h.mark wf (.inr hs)).unmark fun _ ↦ rfl
      simp only [ensures_bind, ensures_store, ensures_cell, ensures_pure, Option.elim_some]
      refine ((Inside.reader wf hu ha).run ds _ hbelow h).mono ?_
      rintro _ ω ⟨h, -, hvalid⟩
      refine ⟨?_, h⟩
      obtain ⟨y, hy⟩ := exists_solution_text (u := u) wf hu (wf.text_default s hs _ hmem ds hds)
        hbelow.2
      rw [hy, Val.getText, ← hy, ← h.solved.result hbelow.1 hvalid]

end MotionPie.Support.Kconfig
