import MotionPie.Support.Kconfig.SetValue
import MotionPie.Support.Kconfig.SettingsChange

/-!
# A value that is set takes effect

What has been worked out stays right through all that the user does: after each call every symbol
that is valid has the value of the solution for the settings then, and when a call says that a value
has been set, the symbol gets it.
-/

namespace MotionPie.Support.Kconfig

open Base

variable {cfg : Config} {rank : Symbol → Nat} {u u' : Settings} {s t : Symbol} {μ ν : Memory}
  {val : Tristate}

/-- Every symbol that is valid has the value of the solution. -/
structure Solves (cfg : Config) (rank : Symbol → Nat) (u : Settings) (μ : Memory) : Prop where
  fit : u.Fit cfg
  solved : ∀ R, Solved cfg rank u R μ

/-- The settings in memory. -/
def settings (μ : Memory) : Settings := fun s ↦ (μ s).user

theorem Solves.result (h : Solves cfg rank u μ) (hs : (μ s).valid) :
    (μ s).toResult = solution cfg rank u s :=
  ((h.solved (rank s + 1)).done s hs (Nat.lt_succ_self _)).result

/-- A constant has its value whatever is set. -/
theorem resultIn_constant {r r' : Results} (hs : s = .yes ∨ s = .mod ∨ s = .no) :
    resultIn cfg u r s = resultIn cfg u' r' s := by
  rcases hs with rfl | rfl | rfl <;> rfl

/-- The settings in memory count as those that the values have been worked out for. -/
theorem Kept.alike (h : Kept cfg u μ) (s : Symbol) : Alike cfg u (settings μ) s := by
  obtain ⟨htri, hval, hhas⟩ := h.user s
  by_cases hc : (cfg s).isChoice
  · exact .inr (.inl ⟨hc, hval.symm⟩)
  · refine .inr (.inr ?_)
    calc u s = ⟨(u s).has, (u s).tri, (u s).val⟩ := rfl
      _ = (μ s).user := by rw [← htri, ← hval, ← hhas (.inr (by simpa using hc))]

theorem Kept.fit (h : Kept cfg u μ) (hu : u.Fit cfg) (wf : WellFormed cfg rank) :
    (settings μ).Fit cfg := by
  refine ⟨fun s hs hhas ↦ ?_, fun c hc ↦ ?_⟩
  · obtain ⟨-, hval, hu'⟩ := h.user s
    rw [settings, hval]
    exact hu.text s hs ((hu' (.inr (wf.of_isText hs).2.1)).symm.trans hhas)
  · rw [settings, (h.user c).2.1]
    exact hu.choice c hc

/-- A text of the user that is in memory counts. -/
def Settings.Fresh (u : Settings) : Prop :=
  ∀ s, s.isText → ∀ t, (u s).val = .text t → (u s).has = true

theorem Kept.fresh (h : Kept cfg u μ) (wf : WellFormed cfg rank) (hu : u.Fresh) :
    (settings μ).Fresh := by
  intro s hs t ht
  obtain ⟨-, hval, hhas⟩ := h.user s
  rw [settings, hhas (.inr (wf.of_isText hs).2.1)]
  exact hu s hs t (hval.symm.trans ht)

/-- The settings of the memory alone are changed. -/
def Resets (μ : Memory) (u : Settings) (ν : Memory) : Prop := ∀ s, ν s = { μ s with user := u s }

theorem Kept.resets (h : Kept cfg u μ) (hν : Resets μ u' ν) : Kept cfg u' ν where
  constant s hs := by
    rw [hν]
    exact ⟨(h.constant s hs).1, fun r ↦ ((h.constant s hs).2 r).trans (resultIn_constant hs)⟩
  user s := by
    rw [hν]
    exact ⟨rfl, rfl, fun _ ↦ rfl⟩
  value s hs := by
    rw [hν]
    exact h.value s hs
  other s hl ht := by
    rw [hν]
    exact h.other s hl ht

/-- When all is to be worked out again, the settings in memory count. -/
theorem Kept.clear (wf : WellFormed cfg rank) (h : Kept cfg u μ) (hu : u.Fit cfg)
    (huser : settings μ = u) : Ensures symClearAllValid μ fun _ ν ↦ Solves cfg rank u ν := by
  subst huser
  rw [symClearAllValid, ensures_modify]
  refine ⟨hu, fun R ↦ ⟨⟨fun s hs ↦ ?_, fun s ↦ ?_, fun s hs ↦ ?_, fun s hl ht ↦ ?_⟩,
    fun s hs hlt ↦ ?_⟩⟩
  · rw [if_pos hs]
    exact h.constant s hs
  · split_ifs <;> exact ⟨rfl, rfl, fun _ ↦ rfl⟩
  · split_ifs <;> exact h.value s hs
  · split_ifs <;> exact h.other s hl ht
  · dsimp only at hs
    split_ifs at hs with hconst
    have htyped : ¬ (s.isLogical ∨ s.isText) := by
      intro hs'
      obtain ⟨hy, hm, hn⟩ := Symbol.not_constant hs'
      tauto
    refine ⟨?_, fun c hc ↦ ?_, fun _ _ hs' ↦ ?_, fun hc ↦ ?_⟩
    · rw [if_pos hconst, solution_eq wf hu]
      exact (h.constant s hconst).2 _
    · exact absurd (.inl (wf.value c s hc).1) htyped
    · exact absurd ((Bool.or_eq_true _ _).mp hs') htyped
    · exact absurd (.inl (wf.choice s hc).1) htyped

/-- When nothing is worked out again, the new settings have to count the same. -/
theorem Solves.resets (h : Solves cfg rank u μ) (hu' : u'.Fit cfg)
    (hν : Resets μ u' ν) (heq : solution cfg rank u' = solution cfg rank u) :
    Solves cfg rank u' ν := by
  refine ⟨hu', fun R ↦ ⟨(h.solved R).toKept.resets hν, fun s hs hlt ↦ ?_⟩⟩
  have hvalid (t : Symbol) : (ν t).valid = (μ t).valid := by rw [hν]
  have hwrite (t : Symbol) : (ν t).write = (μ t).write := by rw [hν]
  rw [hvalid] at hs
  obtain ⟨hresult, hchoice, hw, hvalues⟩ := (h.solved R).done s hs hlt
  rw [heq]
  refine ⟨by rw [hν, ← hresult], fun c hc ↦ ?_, ?_, fun hc hyes hvis m hm hm' ↦ ?_⟩
  · rw [hvalid]
    exact hchoice c hc
  · rwa [hwrite]
  · rw [hwrite]
    exact hvalues hc hyes hvis m hm hm'

/-! ### Symbols of type boolean and tristate -/

theorem Resets.update {c : Setting} (h : Resets μ u ν) (s : Symbol) :
    Resets μ (Function.update u s c) (Function.update ν s { ν s with user := c }) := by
  intro t
  by_cases hts : t = s
  · rw [hts, Function.update_self, Function.update_self, h s]
  · rw [Function.update_of_ne hts, Function.update_of_ne hts, h t]

/-- The choice of `s` takes it, and its values are new no more. -/
structure Takes (cfg : Config) (s : Symbol) (u u' : Settings) : Prop where
  choice : ∀ c, (cfg s).choice = some c → (u' c).val = .sym s
  self : (u' s).val = (u s).val ∧ ((u s).has → (u' s).has)
  other : ∀ t, (cfg s).choice = some t ∨ (cfg t).isChoiceValue ∨ u' t = u t

theorem ensures_setChosen (wf : WellFormed cfg rank) (s : Symbol) (μ : Memory) :
    Ensures (setChosen cfg s) μ fun _ ν ↦
      ∃ u', Resets μ u' ν ∧ Takes cfg s (settings μ) u' := by
  unfold setChosen
  cases hc : (cfg s).choice with
  | none =>
    refine ensures_pure.mpr
      ⟨settings μ, fun _ ↦ rfl, fun c hc' ↦ ?_, ⟨rfl, id⟩, fun _ ↦ .inr (.inr rfl)⟩
    rw [hc] at hc'
    cases hc'
  | some c =>
    have hcs : c ≠ s := by
      rintro rfl
      exact lt_irrefl _ (wf.choice_lt hc)
    simp only [ensures_bind, ensures_store]
    refine (ensures_forM (I := fun ν ↦ ∃ u', Resets μ u' ν ∧ Takes cfg s (settings μ) u')
      (P := fun _ _ ↦ True) ?_ fun m hm ν hν ↦ ?_).mono fun _ ν h ↦ h.1
    · have hμ : Resets μ (settings μ) μ := fun _ ↦ rfl
      refine ⟨_, hμ.update c, fun d hd ↦ ?_, ?_, fun t ↦ ?_⟩
      · obtain rfl : c = d := Option.some.inj (hc.symm.trans hd)
        rw [Function.update_self]
      · rw [Function.update_of_ne hcs.symm]
        exact ⟨rfl, id⟩
      · by_cases htc : t = c
        · exact .inl (by rw [hc, htc])
        · rw [Function.update_of_ne htc]
          exact .inr (.inr rfl)
    · obtain ⟨u', hν, htakes⟩ := hν
      have hmc : (cfg m).isChoiceValue := by
        rw [Decl.isChoiceValue, (wf.choice_iff c m).mpr hm]
        rfl
      simp only [ensures_bind, ensures_cell, ensures_doIf, ensures_store]
      refine ⟨fun _ ↦ ⟨⟨_, hν.update m, fun d hd ↦ ?_, ?_, fun t ↦ ?_⟩, trivial, fun _ _ ↦ trivial⟩,
        fun _ ↦ ⟨⟨u', hν, htakes⟩, trivial, fun _ _ ↦ trivial⟩⟩
      · have hne : d ≠ m := by
          rintro rfl
          exact lt_irrefl _ (wf.choice_lt ((wf.choice_iff c d).mpr hm |>.trans
            (hc.symm.trans hd)))
        rw [Function.update_of_ne hne]
        exact htakes.choice d hd
      · by_cases hsm : s = m
        · subst hsm
          rw [Function.update_self, hν s]
          exact ⟨htakes.self.1, fun _ ↦ rfl⟩
        · rw [Function.update_of_ne hsm]
          exact htakes.self
      · by_cases htm : t = m
        · exact .inr (.inl (htm ▸ hmc))
        · rw [Function.update_of_ne htm]
          exact htakes.other t

/-- What the settings are once `s` has been set to `val`. -/
structure IsSet (cfg : Config) (s : Symbol) (val : Tristate) (u u' : Settings) : Prop where
  self : u' s = ⟨true, val, (u s).val⟩
  choice : val = .yes → ∀ c, (cfg s).choice = some c → (u' c).val = .sym s
  other : ∀ t, t ≠ s →
    (val = .yes ∧ (cfg s).choice = some t) ∨ (cfg t).isChoiceValue ∨ u' t = u t

/-- `sym_set_tristate_value` writes the settings, and has all worked out again if the value is a new
one. -/
theorem ensures_set (wf : WellFormed cfg rank) (s : Symbol) (val : Tristate) (μ : Memory) :
    Ensures (do
      store s fun c ↦ { c with user := { c.user with has := true } }
      doIf (val = .yes) <| setChosen cfg s
      store s fun c ↦ { c with user := { c.user with tri := val } }) μ fun _ ν ↦
      ∃ u', Resets μ u' ν ∧ IsSet cfg s val (settings μ) u' := by
  have hμ : Resets μ (settings μ) μ := fun _ ↦ rfl
  have hhas := hμ.update (c := { (μ s).user with has := true }) s
  simp only [ensures_bind, ensures_store, ensures_doIf]
  refine ⟨fun hyes ↦ ?_, fun hno ↦ ⟨_, hhas.update s, ?_, fun h ↦ absurd h hno, fun t ht ↦ ?_⟩⟩
  · refine (ensures_setChosen wf s _).mono ?_
    rintro _ ξ ⟨u', hξ, htakes⟩
    have hμ' : Resets μ u' ξ := by
      intro t
      rw [hξ, hhas t]
    refine ⟨_, hμ'.update s, ?_, fun _ c hc ↦ ?_, fun t ht ↦ ?_⟩
    · obtain ⟨hval, hhas'⟩ := htakes.self
      rw [settings, Function.update_self] at hval hhas'
      rw [Function.update_self, hξ s]
      exact congrArg₂ (fun a b ↦ Setting.mk a val b) (hhas' rfl) hval
    · have hcs : c ≠ s := by
        rintro rfl
        exact lt_irrefl _ (wf.choice_lt hc)
      rw [Function.update_of_ne hcs]
      exact htakes.choice c hc
    · have hother := htakes.other t
      rw [settings, Function.update_of_ne ht] at hother
      rw [Function.update_of_ne ht]
      exact hother.imp_left fun hc ↦ ⟨hyes, hc⟩
  · rw [Function.update_self, Function.update_self]
    rfl
  · rw [Function.update_of_ne ht, Function.update_of_ne ht]
    exact .inr (.inr rfl)

namespace IsSet

variable {w : Settings}

/-- The settings of a symbol with a text are left alone. -/
theorem of_isText (wf : WellFormed cfg rank) (h : IsSet cfg s val w u') (hs : s.isLogical)
    (ht : t.isText) : u' t = w t := by
  obtain ⟨hl, hchoice, hvalue⟩ := wf.of_isText ht
  have hts : t ≠ s := by
    rintro rfl
    rw [hl] at hs
    cases hs
  rcases h.other t hts with ⟨-, hst⟩ | hv | heq
  · rw [(wf.isChoice_of_choice hst).1] at hchoice
    cases hchoice
  · rw [Decl.isChoiceValue, hvalue] at hv
    cases hv
  · exact heq

theorem fit (wf : WellFormed cfg rank) (h : IsSet cfg s val w u') (hw : w.Fit cfg)
    (hs : s.isLogical) : u'.Fit cfg := by
  refine ⟨fun t ht hhas ↦ ?_, fun c hc ↦ ?_⟩
  · rw [h.of_isText wf hs ht] at hhas ⊢
    exact hw.text t ht hhas
  · by_cases hcs : c = s
    · rw [hcs, h.self]
      exact hw.choice s (hcs ▸ hc)
    · rcases h.other c hcs with ⟨hyes, hst⟩ | hv | heq
      · exact .inr ⟨s, (wf.choice_iff c s).mp hst, h.choice hyes c hst⟩
      · rw [Decl.isChoiceValue, (wf.choice c hc).2.1] at hv
        cases hv
      · rw [heq]
        exact hw.choice c hc

/-- The settings of the other symbols count the same as before. -/
theorem alike (h : IsSet cfg s val w u') (hw : Alike cfg u w t) (ht : t ≠ s)
    (hc : ¬ (val = .yes ∧ (cfg s).choice = some t)) : Alike cfg u u' t := by
  rcases h.other t ht with h | h | h
  · exact absurd h hc
  · exact .inl h
  · rw [Alike, h]
    exact hw

/-- The choice takes the value that is set to `y`. -/
theorem result_choice (wf : WellFormed cfg rank) (hm : Mandatory cfg) (hu : u.Fit cfg)
    (h : IsSet cfg s .yes w u') {c : Symbol} (hc : (cfg s).choice = some c)
    (hvis : visibleIn cfg (solution cfg rank u) s ≠ .no) :
    resultIn cfg u' (solution cfg rank u) c =
      { solution cfg rank u c with val := .sym s, tri := .yes } := by
  obtain ⟨hchoice, hlogical⟩ := wf.isChoice_of_choice hc
  have hyes := tri_of_visible wf hu hc hvis
  have hr := solution_mod wf hu
  have hlogicalIn : logicalIn cfg u' (solution cfg rank u) c = .yes := by
    rw [logicalIn_of_isChoice wf hm hchoice hr, ← logicalIn_of_isChoice (u := u) wf hm hchoice hr]
    rw [solution_eq wf hu] at hyes
    exact (chosen_of_yes wf hchoice hyes).1
  have hchosen : chosenIn cfg u' (opened (solution cfg rank u) c) c = some s := by
    unfold chosenIn
    rw [h.choice rfl c hc]
    refine if_pos ?_
    rw [shownIn, decide_eq_true_iff, visibleIn_opened wf hc hyes]
    exact hvis
  obtain ⟨hv, hd, hrev⟩ := resultIn_seen (u := u) (solution cfg rank u) (.inl hlogical)
  rw [← solution_eq wf hu c] at hv hd hrev
  rw [resultIn_of_isLogical _ hlogical, if_pos ⟨hchoice, hlogicalIn⟩, hchosen, ← hv, ← hd, ← hrev]
  rfl

/-- The value that is set is the one that is worked out. -/
theorem tri_eq (wf : WellFormed cfg rank) (hm : Mandatory cfg) (hu : u.Fit cfg)
    (hw : ∀ t, Alike cfg u w t) (h : IsSet cfg s val w u') (hu' : u'.Fit cfg) (hs : s.isLogical)
    (hno : (cfg s).isChoice = false) (hval : val ≠ .mod)
    (hvis : visibleIn cfg (solution cfg rank u) s = .yes)
    (hrev : revDepIn cfg (solution cfg rank u) s = .no)
    (hchoice : (cfg s).isChoiceValue → val = .yes) :
    (solution cfg rank u' s).tri = val := by
  have hr := solution_mod wf hu
  have hbelow {n : Nat} (hsn : n ≤ rank s)
      (hn : ∀ t, rank t < n → ¬ (val = .yes ∧ (cfg s).choice = some t)) (t : Symbol)
      (ht : rank t < n) : solution cfg rank u' t = solution cfg rank u t := by
    refine solution_congr wf hu hu' (fun a ha ↦ ?_) ht
    refine (h.alike (hw a) ?_ (hn a ha)).resultIn_eq wf hm hr
    rintro rfl
    exact absurd ha (not_lt.mpr hsn)
  rw [solution_eq wf hu', resultIn_of_isLogical _ hs, if_neg (by simp [hno])]
  dsimp only
  rw [logicalIn]
  cases hc : (cfg s).choice with
  | none =>
    have hsame := hbelow (Nat.le_refl _) fun t _ ht ↦ by simp [hc] at ht
    obtain ⟨hvis', -, hrev', -⟩ := own_congr (u := u') fun t ht ↦ hsame t (wf.below s t ht)
    dsimp only
    unfold tristateIn
    rw [hvis', hrev', hvis, hrev, h.self]
    cases val
    · rfl
    · exact absurd rfl hval
    · rfl
  | some c =>
    obtain rfl := hchoice (by rw [Decl.isChoiceValue, hc]; rfl)
    have hlt := wf.choice_lt hc
    have hne : visibleIn cfg (solution cfg rank u) s ≠ .no := by rw [hvis]; decide
    have hsame := hbelow hlt.le fun t ht hct ↦ by
      rw [hc] at hct
      exact absurd ht (Option.some.inj hct.2 ▸ lt_irrefl _)
    have hresult : solution cfg rank u' c =
        { solution cfg rank u c with val := .sym s, tri := .yes } := by
      rw [solution_eq wf hu', ← h.result_choice wf hm hu hc hne]
      exact resultIn_congr wf hu' hsame
    have hvis' : visibleIn cfg (solution cfg rank u') s = .yes := by
      rw [← hvis]
      refine visibleIn_congr fun t ht ↦ ?_
      rcases wf.of_prompts hc t ht with rfl | htc
      · have hl := (wf.isChoice_of_choice hc).2
        rw [Agree, textIn, textIn, if_pos hl, if_pos hl, tri_of_visible wf hu hc hne, hresult]
        exact ⟨rfl, rfl⟩
      · exact Agree.of_eq (hsame t htc)
    dsimp only
    rw [if_pos hvis', if_pos (by rw [hresult])]

/-- A symbol keeps its value when it is set to that. -/
theorem tristateIn_eq {r : Results} (h : IsSet cfg s val w u') (hs : s.isLogical)
    (hval : tristateIn cfg u r s = val) : tristateIn cfg u' r s = val := by
  unfold tristateIn at hval ⊢
  rw [Symbol.symGetType_of_isLogical hs] at hval ⊢
  rw [h.self]
  rcases visibleIn_eq cfg r s with hv | hv
  · simp only [hv, ne_eq, not_true_eq_false, false_and, if_false] at hval ⊢
    exact hval
  · rw [hv] at hval ⊢
    clear h
    revert hval
    generalize (if Tristate.yes ≠ .no ∧ (u s).has then (u s).tri.and .yes
      else defaultIn cfg r s) = x
    cases x <;> cases revDepIn cfg r s <;> rintro rfl <;> rfl

/-- Nothing changes when a symbol is set to the value that it has. -/
theorem solution_eq (wf : WellFormed cfg rank) (hm : Mandatory cfg) (hu : u.Fit cfg)
    (hw : ∀ t, Alike cfg u w t) (h : IsSet cfg s val w u') (hu' : u'.Fit cfg) (hs : s.isLogical)
    (hval : (solution cfg rank u s).tri = val) :
    solution cfg rank u' = solution cfg rank u := by
  have hr := solution_mod wf hu
  have hself := (congrArg Result.tri (Kconfig.solution_eq wf hu s)).symm.trans hval
  rw [resultIn_of_isLogical _ hs] at hself
  refine (solution_unique wf hu' fun t ↦ (Kconfig.solution_eq wf hu t).trans ?_).symm
  by_cases hts : t = s
  · subst hts
    by_cases hvalue : (cfg t).isChoiceValue
    · exact Alike.resultIn_eq wf hm (.inl hvalue) hr
    by_cases hchoice : (cfg t).isChoice
    · refine Alike.resultIn_eq wf hm (.inr (.inl ⟨hchoice, ?_⟩)) hr
      rw [h.self]
      rcases hw t with hw | hw | hw
      · exact absurd hw hvalue
      · exact hw.2
      · rw [hw]
    · rw [if_neg (by simp [hchoice])] at hself
      rw [resultIn_of_isLogical _ hs, resultIn_of_isLogical _ hs, if_neg (by simp [hchoice]),
        if_neg (by simp [hchoice])]
      have hnone : (cfg t).choice = none := by simpa [Decl.isChoiceValue] using hvalue
      have htri : logicalIn cfg u' (solution cfg rank u) t = val := by
        dsimp only at hself
        rw [logicalIn, hnone] at hself ⊢
        exact h.tristateIn_eq hs hself
      rw [htri, ← hself]
  by_cases hct : val = .yes ∧ (cfg s).choice = some t
  · obtain ⟨rfl, hc⟩ := hct
    have hno : ¬ (cfg s).isChoice := by
      intro hs'
      rw [(wf.choice s hs').2.1] at hc
      cases hc
    rw [if_neg fun h ↦ hno h.1] at hself
    have hvis : visibleIn cfg (solution cfg rank u) s ≠ .no := by
      intro hvis
      dsimp only at hself
      rw [logicalIn, hc] at hself
      dsimp only at hself
      rw [hvis, if_neg (by decide), tristateIn_of_choice wf hc hvis] at hself
      cases hself
    have hyes : visibleIn cfg (solution cfg rank u) s = .yes :=
      (visibleIn_eq _ _ s).resolve_left hvis
    dsimp only at hself
    rw [logicalIn, hc] at hself
    dsimp only at hself
    rw [if_pos hyes] at hself
    have hchosen : (solution cfg rank u t).val = .sym s := by
      by_contra hne
      rw [if_neg hne] at hself
      cases hself
    rw [h.result_choice wf hm hu hc hvis, ← Kconfig.solution_eq wf hu]
    exact congrArg₂ (fun a b ↦ { solution cfg rank u t with val := a, tri := b }) hchosen
      (tri_of_visible wf hu hc hvis)
  · exact (h.alike (hw t) hts hct).resultIn_eq wf hm hr

end IsSet

/-- What a value in range is. -/
theorem ensures_symTristateWithinRange (hs : s.isLogical) (val : Tristate) (μ : Memory) :
    Ensures (symTristateWithinRange cfg s val) μ fun b ν ↦ ν = μ ∧
      (b = true → (μ s).visible ≠ .no ∧ val ≠ .mod ∧ ¬ (μ s).visible ≤ (μ s).revDep ∧
        ((cfg s).isChoiceValue → (μ s).visible = .yes → val = .yes)) := by
  simp only [symTristateWithinRange, ensures_bind, ensures_cell, ensures_ite, ensures_pure,
    Symbol.symGetType_of_isLogical hs]
  refine ⟨fun _ ↦ ⟨trivial, Bool.noConfusion⟩, fun hvis ↦ ⟨fun h ↦ absurd rfl h.1, fun _ ↦
    ⟨fun _ ↦ ⟨trivial, Bool.noConfusion⟩, fun hmod ↦ ⟨fun _ ↦ ⟨trivial, Bool.noConfusion⟩,
      fun hle ↦ ⟨fun hc ↦ ⟨trivial, fun hb ↦ ?_⟩, fun hc ↦ ⟨trivial, fun hb ↦ ?_⟩⟩⟩⟩⟩⟩
  · exact ⟨hvis, fun h ↦ hmod ⟨trivial, h⟩, hle, fun _ _ ↦ of_decide_eq_true hb⟩
  · exact ⟨hvis, fun h ↦ hmod ⟨trivial, h⟩, hle, fun hv hyes ↦ absurd ⟨hv, hyes⟩ hc⟩

theorem revDepIn_ne_mod (cfg : Config) (r : Results) (hs : s.isLogical) :
    revDepIn cfg r s ≠ .mod := by
  unfold revDepIn
  rw [Symbol.symGetType_of_isLogical hs]
  split_ifs
  · exact Tristate.noConfusion
  · cases (cfg s).revDep with
    | none => exact Tristate.noConfusion
    | some e =>
      rw [Option.elim_some]
      cases e.valueIn r <;> decide

/-- A call of `sym_set_tristate_value` leaves all values right, and has an effect if it says so. -/
theorem ensures_symSetTristateValue (wf : WellFormed cfg rank) (hm : Mandatory cfg)
    (h : Solves cfg rank u μ) (hs : s.isLogical) (hvalid : (μ s).valid) (val : Tristate) :
    Ensures (symSetTristateValue cfg s val) μ fun b ν ↦ ∃ u', Solves cfg rank u' ν ∧
      (u.Fresh → u'.Fresh) ∧
      (b = true → (cfg s).isChoice = false → (solution cfg rank u' s).tri = val) := by
  have hresult := h.result hvalid
  have hkept := (h.solved 0).toKept
  have hset := ensures_set wf s val μ
  simp only [symSetTristateValue, ensures_bind, ensures_cell] at hset ⊢
  refine (ensures_symTristateWithinRange hs val μ).mono ?_
  rintro within ν ⟨hν, hwithin⟩
  rw [hν, ensures_ite]
  refine ⟨fun _ ↦ ensures_pure.mpr ⟨u, h, id, Bool.noConfusion⟩, fun hok ↦ ?_⟩
  simp only [ensures_bind]
  refine hset.mono fun _ ξ hset ↦ hset.mono fun _ ζ hset ↦ hset.mono ?_
  rintro _ ω ⟨u', hω, hu'⟩
  have hfit := hu'.fit wf (hkept.fit h.fit wf) hs
  have hfresh : u.Fresh → u'.Fresh := fun hu t ht text htext ↦ by
    rw [hu'.of_isText wf hs ht] at htext ⊢
    exact hkept.fresh wf hu t ht text htext
  have huser : settings ω = u' := funext fun t ↦ congrArg Cell.user (hω t)
  rw [ensures_doIf]
  refine ⟨fun hne ↦ ?_, fun heq ↦ ?_⟩
  · refine (Kept.clear wf (hkept.resets hω) hfit huser).mono fun _ κ hκ ↦ ?_
    refine ensures_pure.mpr ⟨u', hκ, hfresh, fun _ hno ↦ ?_⟩
    obtain ⟨hseen, -, hrev⟩ := resultIn_seen (u := u) (solution cfg rank u) (.inl hs)
    rw [← solution_eq wf h.fit, ← hresult] at hseen hrev
    have hin : within = true := by
      by_contra hin
      exact hok ⟨hne, hin⟩
    obtain ⟨hvis, hmod, hle, hchoice⟩ := hwithin hin
    rw [hseen] at hvis hle hchoice
    rw [hrev] at hle
    have hyes := (visibleIn_eq _ _ s).resolve_left hvis
    refine hu'.tri_eq wf hm h.fit hkept.alike hfit hs hno hmod hyes ?_ fun hc ↦ hchoice hc hyes
    rw [hyes] at hle
    have hne := revDepIn_ne_mod cfg (solution cfg rank u) hs
    revert hle hne
    cases revDepIn cfg (solution cfg rank u) s <;> decide
  · have hsame := hu'.solution_eq wf hm h.fit hkept.alike hfit hs ?_
    · exact ensures_pure.mpr ⟨u', h.resets hfit hω hsame, hfresh, fun _ _ ↦ by
        rw [hsame, ← hresult]; simpa using heq⟩
    · rw [← hresult]
      simpa using heq

end MotionPie.Support.Kconfig
