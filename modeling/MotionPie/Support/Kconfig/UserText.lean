import MotionPie.Support.Kconfig.UserValue

/-!
# A text that is set takes effect

The text has to be a valid one in the range that counts then. Whoever sets it has to have set it
before, if it is in memory: otherwise the flag alone is put up and nothing is worked out again.
-/

namespace MotionPie.Support.Kconfig

open Base

variable {cfg : Config} {rank : Symbol → Nat} {u u' : Settings} {s t : Symbol} {μ ν : Memory}
  {fuel : Nat} {newval : Bytes}

/-- A symbol is asked for. -/
theorem Solves.calc (wf : WellFormed cfg rank) (hfuel : rank s + 1 < fuel)
    (h : Solves cfg rank u μ) :
    Ensures (symCalcValue cfg fuel s) μ fun _ ν ↦
      Solves cfg rank u ν ∧ Grows μ ν ∧ (ν s).valid := by
  have hrun (R : Nat) (hR : rank s < R) := ensures_symCalcValue wf h.fit hfuel hR (h.solved R)
  obtain ⟨_, ν, hν, hsolved, hstep, hvalid⟩ := hrun _ (Nat.lt_succ_self _)
  refine ⟨_, ν, hν, ⟨h.fit, fun R ↦ ?_⟩, hstep.grows, hvalid⟩
  obtain ⟨_, ν', hν', hsolved', -⟩ := hrun (max R (rank s + 1)) (by omega)
  obtain rfl : ν = ν' := congrArg Prod.snd (Option.some.inj (hν.symm.trans hν'))
  exact hsolved'.mono (le_max_left _ _)

/-- Any symbol with a text can be read. -/
theorem Solves.reader (wf : WellFormed cfg rank) (hu : u.Fit cfg) (hfuel : ∀ s, rank s + 1 < fuel) :
    Reader (symCalcValue cfg fuel) (solution cfg rank u) (fun t ↦ t.isLogical ∨ t.name.isSome)
      (Solves cfg rank u) where
  run t μ _ h := h.calc wf (hfuel t)
  tri t μ _ h hvalid := congrArg Result.tri (h.result hvalid)
  logical t _ hl := by
    rw [solution_eq wf hu]
    exact resultIn_ne_mod _ hl
  text t μ ht h hvalid hl := by
    obtain ⟨y, hy⟩ := exists_solution_text (u := u) wf hu (isChoice_of_not_isLogical wf hl) ht
    exact ⟨y, by rw [← hy, ← h.result hvalid], hy⟩

/-- The number that a symbol stands for in a range. -/
theorem Solves.rangeVal (wf : WellFormed cfg rank) (hfuel : ∀ s, rank s + 1 < fuel)
    (h : Solves cfg rank u μ) (hc : (cfg t).isChoice = false) (ht : t.isLogical ∨ t.name.isSome)
    (base : Nat) :
    Ensures (symGetRangeVal (symCalcValue cfg fuel) t base) μ fun a ν ↦
      a = rangeValIn (solution cfg rank u) t base ∧ Solves cfg rank u ν ∧ Grows μ ν := by
  obtain ⟨y, hy⟩ := exists_solution_text (u := u) wf h.fit hc ht
  simp only [symGetRangeVal, ensures_bind, ensures_cell]
  refine (h.calc wf (hfuel t)).mono ?_
  rintro _ ξ ⟨h, hg, hvalid⟩
  have hval : (ξ t).val = .text y := by rw [← hy, ← h.result hvalid]
  rw [hval, rangeValIn, hy, textOf, ensures_pure, ensures_pure]
  exact ⟨rfl, h, hg⟩

/-- A text in range is one that the range leaves alone. -/
theorem ensures_symStringWithinRange (wf : WellFormed cfg rank) (hfuel : ∀ s, rank s + 1 < fuel)
    (h : Solves cfg rank u μ) (s : Symbol) (text : Bytes) :
    Ensures (symStringWithinRange cfg (symCalcValue cfg fuel) s text) μ fun b ν ↦
      Solves cfg rank u ν ∧ Grows μ ν ∧ (b = true → symStringValid s text = true ∧
        ∀ text', (∀ base, baseOf s.type = some base → strtoll base text' = strtoll base text) →
          clampIn cfg (solution cfg rank u) s text' = text') := by
  obtain ⟨-, -, -, -, hranges, -, hbounds⟩ :=
    Decl.forall_mem_symbols.mp (wf.readable s)
  unfold symStringWithinRange clampIn
  rw [ensures_ite]
  refine ⟨fun _ ↦ ensures_pure.mpr ⟨h, Grows.refl μ, Bool.noConfusion⟩, fun hvalid ↦ ?_⟩
  have hvalid' : symStringValid s text = true := by simpa using hvalid
  cases hbase : baseOf s.type with
  | none => exact ensures_pure.mpr ⟨h, Grows.refl μ, fun _ ↦ ⟨hvalid', fun _ _ ↦ rfl⟩⟩
  | some base =>
    simp only [symGetRangeProp, ensures_bind]
    refine ((Solves.reader wf h.fit hfuel).firstVisible hranges h).mono ?_
    rintro prop ξ ⟨hprop, h, hg⟩
    rcases prop with _ | ⟨range, v⟩
    · rw [← hprop]
      exact ensures_pure.mpr ⟨h, hg, fun _ ↦ ⟨hvalid', fun _ _ ↦ rfl⟩⟩
    · obtain ⟨c, hmem, -⟩ := mem_of_firstVisibleIn hprop.symm
      obtain ⟨hlow, hhigh⟩ := wf.range s _ hmem
      have hread (t : Symbol) (ht : t ∈ [range.1, range.2]) : t.isLogical ∨ t.name.isSome :=
        hbounds t (List.mem_flatMap.mpr ⟨_, hmem, ht⟩)
      rw [← hprop]
      simp only [ensures_bind]
      refine (h.rangeVal wf hfuel hlow (hread _ List.mem_cons_self) base).mono ?_
      rintro low ζ ⟨hl, h, hg'⟩
      rw [ensures_ite]
      refine ⟨fun hge ↦ ?_, fun _ ↦
        ensures_pure.mpr ⟨h, hg.trans hg', Bool.noConfusion⟩⟩
      rw [ensures_bind]
      refine (h.rangeVal wf hfuel hhigh (hread _ (List.mem_cons_of_mem _ List.mem_cons_self))
        base).mono ?_
      rintro high ω ⟨hh, h, hg''⟩
      refine ensures_pure.mpr
          ⟨h, (hg.trans hg').trans hg'', fun hle ↦ ⟨hvalid', fun text' htext ↦ ?_⟩⟩
      rw [hl] at hge
      rw [hh] at hle
      rw [htext base rfl, if_neg (not_lt.mpr hge), if_neg (not_lt.mpr (of_decide_eq_true hle))]

/-- The prefix that is put before a number changes nothing. -/
theorem strtoll_withHexPrefix (hvalid : symStringValid s newval = true) {base : Nat}
    (hbase : baseOf s.type = some base) :
    strtoll base (withHexPrefix s newval) = strtoll base newval := by
  unfold withHexPrefix
  split_ifs with h
  · obtain ⟨htype, hdrop⟩ := h
    rw [htype] at hbase
    obtain rfl : 16 = base := Option.some.inj hbase
    unfold symStringValid at hvalid
    rw [htype, hdrop] at hvalid
    obtain ⟨hne, hall⟩ : newval ≠ [] ∧ ∀ b ∈ newval, isXdigit b = true := by simpa using hvalid
    refine strtoll_hexPrefix hne (fun b hb ↦ ?_) hdrop
    obtain ⟨d, hd, hlt⟩ := (Option.any_eq_true _ _).mp (hall b hb)
    exact ⟨d, of_decide_eq_true hlt, hd⟩
  · rfl

/-- The settings once a text has been set. -/
def setText (s : Symbol) (text : Bytes) (u : Settings) : Settings :=
  Function.update u s ⟨true, (u s).tri, .text text⟩

theorem setText_fit (hu : u.Fit cfg) (hs : (cfg s).isChoice = false) (text : Bytes) :
    (setText s text u).Fit cfg := by
  refine ⟨fun t ht hhas ↦ ?_, fun c hc ↦ ?_⟩
  · by_cases hts : t = s
    · rw [hts, setText, Function.update_self]
      exact ⟨text, rfl⟩
    · rw [setText, Function.update_of_ne hts] at hhas ⊢
      exact hu.text t ht hhas
  · have hcs : c ≠ s := by
      rintro rfl
      rw [hc] at hs
      cases hs
    rw [setText, Function.update_of_ne hcs]
    exact hu.choice c hc

theorem setText_fresh (hu : u.Fresh) (text : Bytes) : (setText s text u).Fresh := by
  intro t ht text' htext
  by_cases hts : t = s
  · rw [hts, setText, Function.update_self]
  · rw [setText, Function.update_of_ne hts] at htext ⊢
    exact hu t ht text' htext

/-- A text that is set is worked out as the value, where it is visible and the range leaves it
alone. -/
theorem solution_setText (wf : WellFormed cfg rank) (hm : Mandatory cfg) (hu : u.Fit cfg)
    {w : Settings} (hw : ∀ t, Alike cfg u w t) (hs : s.isText) {text : Bytes}
    (hu' : (setText s text w).Fit cfg)
    (hvis : (solution cfg rank u s).visible ≠ .no)
    (hclamp : clampIn cfg (solution cfg rank u) s text = text) :
    (solution cfg rank (setText s text w) s).val = .text text := by
  have hbelow (t : Symbol) (ht : rank t < rank s) :
      solution cfg rank (setText s text w) t = solution cfg rank u t := by
    refine solution_congr wf hu hu' (fun a ha ↦ ?_) ht
    refine Alike.resultIn_eq wf hm ?_ (solution_mod wf hu)
    have has : a ≠ s := by
      rintro rfl
      exact lt_irrefl _ ha
    rw [Alike, setText, Function.update_of_ne has]
    exact hw a
  obtain ⟨hvis', -, -, -, hclamp'⟩ :=
    own_congr (u := u) fun t ht ↦ hbelow t (wf.below s t ht)
  rw [solution_eq wf hu, (resultIn_seen _ (.inr hs)).1, ← hvis'] at hvis
  rw [solution_eq wf hu', resultIn_of_isText _ hs]
  dsimp only
  rw [rawTextIn, if_pos ⟨hvis, by rw [setText, Function.update_self]⟩, setText,
    Function.update_self, Val.getText, ← setText, hclamp', hclamp]

/-- A call of `sym_set_string_value` for a symbol with a text. -/
theorem ensures_symSetText (wf : WellFormed cfg rank) (hm : Mandatory cfg)
    (hfuel : ∀ s, rank s + 1 < fuel) (h : Solves cfg rank u μ) (hfresh : u.Fresh) (hs : s.isText)
    (newval : Bytes) :
    Ensures (symSetText cfg (symCalcValue cfg fuel) s newval) μ fun b ν ↦
      ∃ u', Solves cfg rank u' ν ∧ u'.Fresh ∧ (b = true → (solution cfg rank u s).visible ≠ .no →
        (solution cfg rank u' s).val = .text (withHexPrefix s newval)) := by
  have hchoice := (wf.of_isText hs).2.1
  simp only [symSetText, ensures_bind]
  refine (ensures_symStringWithinRange wf hfuel h s newval).mono ?_
  rintro b ν ⟨h, -, hb⟩
  have hkept := (h.solved 0).toKept
  obtain ⟨htri, hval, hhas⟩ := hkept.user s
  have hhas := hhas (.inr hchoice)
  rw [ensures_ite]
  refine ⟨fun _ ↦ ensures_pure.mpr ⟨u, h, hfresh, Bool.noConfusion⟩, fun hok ↦ ?_⟩
  obtain ⟨hvalid, hrange⟩ := hb (by simpa using hok)
  have hclamp := hrange (withHexPrefix s newval) fun base hbase ↦ strtoll_withHexPrefix hvalid hbase
  simp only [ensures_bind, ensures_store, ensures_cell, ensures_ite, ensures_pure,
    Function.update_self, Function.update_idem]
  refine ⟨fun hkept' ↦ ?_, fun _ ↦ ?_⟩
  · obtain ⟨hkeep, htext⟩ := hkept'
    have htext' : (u s).val = .text newval := hval.symm.trans htext
    have hu := hfresh s hs newval htext'
    have hν : Function.update ν s { ν s with user := { (ν s).user with has := true } } = ν := by
      rw [← hu, ← hhas]
      exact Function.update_eq_self s ν
    rw [hν]
    refine ⟨u, h, hfresh, fun _ hvis ↦ ?_⟩
    rw [solution_eq wf h.fit, (resultIn_seen _ (.inr hs)).1] at hvis
    rw [hkeep] at hclamp ⊢
    rw [solution_eq wf h.fit, resultIn_of_isText _ hs]
    dsimp only
    rw [rawTextIn, if_pos ⟨hvis, hu⟩, htext', Val.getText, hclamp]
  · have hν : Resets ν (setText s (withHexPrefix s newval) (settings ν)) (Function.update ν s
        { ν s with user := ⟨true, (ν s).user.tri, .text (withHexPrefix s newval)⟩ }) :=
      Resets.update (fun _ ↦ rfl) s
    have hfit := setText_fit (s := s) (hkept.fit h.fit wf) hchoice (withHexPrefix s newval)
    refine (Kept.clear wf (hkept.resets hν) hfit
      (funext fun t ↦ congrArg Cell.user (hν t))).mono fun _ ξ h' ↦ ⟨_, h', ?_, fun _ hvis ↦
        solution_setText wf hm h.fit hkept.alike hs hfit hvis hclamp⟩
    exact setText_fresh (hkept.fresh wf hfresh) _

end MotionPie.Support.Kconfig
