import MotionPie.Support.Kconfig.Branches

/-!
# The calculation of a choice

A choice that is `y` has the visibility of its values worked out, while it counts as `y` itself, and
takes what the user has chosen or a default.
-/

namespace MotionPie.Support.Kconfig

open Base

variable {cfg : Config} {rank : Symbol → Nat} {u : Settings} {again : Symbol → Calc PUnit}
  {s t : Symbol} {μ η ν ξ : Memory} {x y c : Cell}

/-- In the calculation of a choice that is `y`, the choice can be asked for too. -/
theorem Inside.openReader (wf : WellFormed cfg rank) (hu : u.Fit cfg)
    (ha : Calls cfg rank u again s) (hs : s.isLogical) (hyes : x.tri = .yes) :
    Reader again (opened (solution cfg rank u) s) (fun t ↦ t = s ∨ Below rank s t)
      (Inside cfg rank u s μ x η) := by
  have hreader := Inside.reader (μ := μ) (x := x) (η := η) wf hu ha
  have hopened {t : Symbol} (ht : Below rank s t) :
      opened (solution cfg rank u) s t = solution cfg rank u t := by
    refine Function.update_of_ne ?_ _ _
    rintro rfl
    exact lt_irrefl _ ht.1
  have hself : opened (solution cfg rank u) s s = ⟨.null, .yes, .no, .no, .no⟩ :=
    Function.update_self _ _ _
  refine ⟨fun t ν ht h ↦ ?_, fun t ν ht h hvalid ↦ ?_, fun t ht hlogical ↦ ?_,
    fun t ν ht h hvalid hlogical ↦ ?_⟩
  all_goals rcases ht with rfl | ht
  · have hvalid : (ν t).valid := by
      rw [h.cell.valid]
      exact h.valid
    refine (ha.valid t ν hvalid).mono fun _ ξ hξ ↦ ?_
    rw [hξ]
    exact ⟨h, Grows.refl ν, hvalid⟩
  · exact hreader.run t ν ht h
  · obtain ⟨w, -, hcell⟩ := h.cell
    rw [hself, hcell, hyes]
  · rw [hopened ht]
    exact hreader.tri t ν ht h hvalid
  · rw [hself]
    decide
  · rw [hopened ht]
    exact hreader.logical t ht hlogical
  · rw [hs] at hlogical
    cases hlogical
  · rw [hopened ht]
    exact hreader.text t ν ht h hvalid hlogical

/-- The visibility of the values is what it is while the choice is `y`. -/
def Shown (cfg : Config) (rank : Symbol → Nat) (u : Settings) (s : Symbol) (η : Memory)
    (m : Symbol) : Prop :=
  (η m).visible = visibleIn cfg (opened (solution cfg rank u) s) m

/-- The visibility of a value of the choice. -/
theorem ensures_symCalcVisibility_value (wf : WellFormed cfg rank) (hu : u.Fit cfg)
    (ha : Calls cfg rank u again s) (hs : s.isLogical) (hyes : x.tri = .yes)
    (hμ : (μ s).valid = false) (ht : t ∈ (cfg s).values) (h : Inside cfg rank u s μ x η ν) :
    Ensures (symCalcVisibility cfg again t) ν fun _ ξ ↦ ∃ η', Inside cfg rank u s μ x η' ξ ∧
      Shown cfg rank u s η' t ∧ ∀ m, Shown cfg rank u s η m → Shown cfg rank u s η' m := by
  have hchoice := (wf.choice_iff s t).mpr ht
  have hprompts : ∀ a ∈ (cfg t).prompts.flatMap condSymbols, a = s ∨ Below rank s a := by
    intro a hmem
    obtain ⟨p, hp, hap⟩ := List.mem_flatMap.mp hmem
    exact (wf.of_prompts hchoice a hmem).imp_right fun hlt ↦
      ⟨hlt, wf.readable t a (Decl.mem_symbols_of_prompt hp hap)⟩
  have hvalue : (cfg t).isChoiceValue = true := by
    rw [Decl.isChoiceValue, hchoice]
    rfl
  simp only [symCalcVisibility, ensures_bind, ensures_store, ensures_doIf]
  refine ((Inside.openReader wf hu ha hs hyes).promptVisibility hprompts h .no).mono ?_
  rintro a ξ ⟨hval, h, -, -⟩
  refine ⟨fun hno ↦ absurd hvalue hno, fun _ ↦ ?_⟩
  have hvis : a.toYes = visibleIn cfg (opened (solution cfg rank u) s) t := by
    rw [hval, visibleIn]
  obtain ⟨w, hw, hcell⟩ := h.values t ht
  refine ⟨_, h.storeValue wf hμ ht a.toYes (ξ t).write (y := { η t with visible := a.toYes }) id
    ⟨w, hw, by rw [hcell]⟩, ?_, fun m hm ↦ ?_⟩
  · rw [Shown, Function.update_self, hvis]
  · by_cases hmt : m = t
    · rw [hmt, Shown, Function.update_self, hvis]
    · rw [Shown, Function.update_of_ne hmt]
      exact hm

/-- The visibility of all values. -/
theorem ensures_calcValues (wf : WellFormed cfg rank) (hu : u.Fit cfg)
    (ha : Calls cfg rank u again s) (hs : s.isLogical) (hyes : x.tri = .yes)
    (hμ : (μ s).valid = false) {ms : List Symbol} (hms : ∀ m ∈ ms, m ∈ (cfg s).values)
    (h : Inside cfg rank u s μ x η ν) (has : Bool) :
    Ensures (calcValues cfg again has ms) ν fun _ ξ ↦ ∃ η', Inside cfg rank u s μ x η' ξ ∧
      (∀ m ∈ ms, Shown cfg rank u s η' m) ∧
      ∀ m, Shown cfg rank u s η m → Shown cfg rank u s η' m := by
  induction ms generalizing η ν has with
  | nil => exact ensures_pure.mpr ⟨η, h, fun m hm ↦ absurd hm List.not_mem_nil, fun _ hm ↦ hm⟩
  | cons m ms ih =>
    obtain ⟨hm, hms⟩ := List.forall_mem_cons.mp hms
    simp only [calcValues, ensures_bind, ensures_cell]
    refine (ensures_symCalcVisibility_value wf hu ha hs hyes hμ hm h).mono ?_
    rintro _ ξ ⟨η', h, hshown, hkept⟩
    refine (ih hms h _).mono ?_
    rintro _ ζ ⟨η'', h, hall, hkept'⟩
    refine ⟨η'', h, ?_, ?_⟩
    · exact List.forall_mem_cons.mpr ⟨hkept' m hshown, hall⟩
    · exact fun a ha ↦ hkept' a (hkept a ha)

section Chosen

variable (wf : WellFormed cfg rank) (hu : u.Fit cfg) (ha : Calls cfg rank u again s)
  (hs : s.isLogical) (hshown : ∀ m ∈ (cfg s).values, Shown cfg rank u s η m)

/-- A value of the choice is visible if it is shown. -/
theorem Inside.visible (h : Inside cfg rank u s μ x η ν)
    (hshown : ∀ m ∈ (cfg s).values, Shown cfg rank u s η m) (ht : t ∈ (cfg s).values) :
    (ν t).visible ≠ .no ↔ shownIn cfg (opened (solution cfg rank u) s) t = true := by
  rw [(h.values t ht).visible, hshown t ht, shownIn, decide_eq_true_iff]

include hshown in
/-- The first value that is shown. -/
theorem ensures_firstVisibleValue (h : Inside cfg rank u s μ x η ν) {ms : List Symbol}
    (hms : ∀ m ∈ ms, m ∈ (cfg s).values) :
    Ensures (firstVisibleValue ms) ν fun a ξ ↦
      a = ms.find? (shownIn cfg (opened (solution cfg rank u) s)) ∧ ξ = ν := by
  induction ms with
  | nil => exact ensures_pure.mpr ⟨rfl, rfl⟩
  | cons m ms ih =>
    obtain ⟨hm, hms⟩ := List.forall_mem_cons.mp hms
    have hiff := h.visible hshown hm
    simp only [firstVisibleValue, ensures_bind, ensures_cell, ensures_ite, ensures_pure]
    refine ⟨fun hv ↦ ⟨?_, trivial⟩, fun hv ↦ ?_⟩
    · rw [List.find?_cons_of_pos (hiff.mp hv)]
    · rw [List.find?_cons_of_neg (fun h ↦ hv (hiff.mpr h))]
      exact ih hms

include wf hu ha hs hshown in
/-- The default of a choice. -/
theorem ensures_choiceDefault (h : Inside cfg rank u s μ x η ν) (hyes : x.tri = .yes)
    {ps : List (Expr × Option Expr)}
    (hcond : ∀ t ∈ ps.flatMap (fun p ↦ condSymbols p.2), t = s ∨ Below rank s t)
    (hps : ∀ p ∈ ps, ∃ d ∈ (cfg s).values, p.1 = .symbol d) :
    Ensures (choiceDefault again (cfg s).values ps) ν fun a ξ ↦
      a = choiceDefaultIn cfg (opened (solution cfg rank u) s) (cfg s).values ps ∧
      Inside cfg rank u s μ x η ξ := by
  induction ps generalizing ν with
  | nil =>
    refine (ensures_firstVisibleValue hshown h fun _ hm ↦ hm).mono ?_
    rintro a ξ ⟨hval, hξ⟩
    rw [hξ]
    exact ⟨hval, h⟩
  | cons p ps ih =>
    rw [List.flatMap_cons, List.forall_mem_append] at hcond
    obtain ⟨⟨d, hd, hp⟩, hps⟩ := List.forall_mem_cons.mp hps
    simp only [choiceDefault, choiceDefaultIn, hp, propGetSymbol, ensures_bind]
    refine ((Inside.openReader wf hu ha hs hyes).condCalcValue hcond.1 h).mono ?_
    rintro a ξ ⟨hval, h, -, -⟩
    rw [← hval, ensures_ite]
    refine ⟨fun hno ↦ ?_, fun hno ↦ ?_⟩
    · rw [if_pos hno]
      exact ih h hcond.2 hps
    · have hiff := h.visible hshown hd
      rw [if_neg hno, ensures_bind, ensures_cell, ensures_ite, ensures_pure]
      refine ⟨fun hv ↦ ?_, fun hv ↦ ?_⟩
      · rw [if_pos (hiff.mp hv)]
        exact ⟨rfl, h⟩
      · rw [if_neg (fun h ↦ hv (hiff.mpr h))]
        exact ih h hcond.2 hps

include hu hshown in
/-- Whether what the user has chosen is shown decides on the value. -/
theorem ensures_userVisible (hc : (cfg s).isChoice) (h : Inside cfg rank u s μ x η ν) :
    Ensures (userVisible (u s).val) ν fun b ξ ↦ ξ = ν ∧
      (b = true → (u s).val =
        (chosenIn cfg u (opened (solution cfg rank u) s) s).elim .null .sym ∧
        (chosenIn cfg u (opened (solution cfg rank u) s) s).isSome) ∧
      (b = false → chosenIn cfg u (opened (solution cfg rank u) s) s =
        choiceDefaultIn cfg (opened (solution cfg rank u) s) (cfg s).values (cfg s).defaults) := by
  unfold chosenIn
  rcases hu.choice s hc with hnull | ⟨d, hd, hsym⟩
  · rw [hnull]
    exact ensures_pure.mpr ⟨rfl, fun hb ↦ Bool.noConfusion hb, fun _ ↦ rfl⟩
  · have hiff := h.visible hshown hd
    rw [hsym]
    simp only [userVisible, ensures_bind, ensures_cell, ensures_pure, decide_eq_true_iff,
      decide_eq_false_iff_not]
    refine ⟨trivial, fun hv ↦ ?_, fun hv ↦ if_neg fun hd ↦ hv (hiff.mpr hd)⟩
    rw [if_pos (hiff.mp hv)]
    exact ⟨rfl, rfl⟩

/-- What is left to tell of a choice. -/
def settled (chosen : Option Symbol) (x : Cell) (has : Bool) : Cell :=
  { x with tri := if chosen.isSome then x.tri else .no, user := { x.user with has := has } }

include wf hu ha hs in
/-- What a choice comes to that is `y`. -/
theorem ensures_symCalcChoice (h : Inside cfg rank u s μ x η ν) (hu' : x.user = u s)
    (hc : (cfg s).isChoice) (hyes : x.tri = .yes) (hμ : (μ s).valid = false) :
    Ensures (symCalcChoice cfg again s) ν fun a ξ ↦ ∃ η' has,
      a = (chosenIn cfg u (opened (solution cfg rank u) s) s).elim .null .sym ∧
      (∀ m ∈ (cfg s).values, Shown cfg rank u s η' m) ∧
      Inside cfg rank u s μ
        (settled (chosenIn cfg u (opened (solution cfg rank u) s) s) x has) η' ξ := by
  have hval : (ν s).user.val = (u s).val := by
    obtain ⟨w, -, hcell⟩ := h.cell
    rw [hcell, hu']
  obtain ⟨-, -, -, hcond, -⟩ := Decl.forall_mem_symbols.mp (below_of_mem wf (s := s))
  simp only [symCalcChoice, ensures_bind, ensures_cell, ensures_store, hval]
  refine (ensures_calcValues wf hu ha hs hyes hμ (fun _ hm ↦ hm) h _).mono ?_
  rintro has ξ ⟨η', h, hshown, -⟩
  have h := h.put wf (.inl hs)
    (fun c ↦ { c with user := { c.user with has := c.user.has && has } })
    (fun _ ↦ ⟨rfl, rfl, fun hno ↦ absurd hc (by simp [hno]), id, fun _ ↦ ⟨rfl, rfl, id⟩⟩)
    (fun _ _ ↦ rfl) fun _ ↦ rfl
  refine (ensures_userVisible hu hshown hc h).mono ?_
  rintro b ζ ⟨hζ, htrue, hfalse⟩
  rw [hζ, ensures_ite, ensures_pure, ensures_bind]
  refine ⟨fun hb ↦ ?_, fun hb ↦ ?_⟩
  · obtain ⟨hchosen, hsome⟩ := htrue hb
    refine ⟨η', x.user.has && has, hchosen, hshown, ?_⟩
    rw [settled, if_pos hsome]
    exact h
  · rw [hfalse (by simpa using hb)]
    refine (ensures_choiceDefault wf hu ha hs hshown h hyes (fun t ht ↦ .inr (hcond t ht))
      (wf.choice s hc).2.2).mono ?_
    rintro d ω ⟨hd, h⟩
    rw [← hd]
    cases d with
    | some d =>
      rw [ensures_pure]
      exact ⟨η', x.user.has && has, rfl, hshown, h⟩
    | none =>
      rw [ensures_bind, ensures_store, ensures_pure]
      refine ⟨η', x.user.has && has, rfl, hshown, ?_⟩
      exact h.put wf (.inl hs) (fun c ↦ { c with tri := .no })
        (fun _ ↦ ⟨rfl, rfl, fun _ ↦ rfl, id, fun _ ↦ ⟨rfl, rfl, id⟩⟩) (fun _ _ ↦ rfl) fun _ ↦ rfl

end Chosen

end MotionPie.Support.Kconfig
