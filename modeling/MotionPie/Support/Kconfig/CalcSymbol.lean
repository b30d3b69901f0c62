import MotionPie.Support.Kconfig.ChoiceBranch

/-!
# The calculation of a symbol as a whole

`sym_calc_value` gives every symbol the value of the solution.
-/

namespace MotionPie.Support.Kconfig

open Base

variable {cfg : Config} {rank : Symbol → Nat} {u : Settings} {again : Symbol → Calc PUnit}
  {s t : Symbol} {μ η ν ξ : Memory} {x y c : Cell} {R : Nat}

/-! ### The types boolean and tristate -/

/-- A choice value that can be chosen. -/
theorem ensures_calcChosen {choice : Symbol} (wf : WellFormed cfg rank)
    (hc : (cfg s).choice = some choice) (h : Inside cfg rank u s μ x η ν) :
    Ensures (calcChosen s choice) ν fun a ξ ↦ ξ = ν ∧
      a = if (solution cfg rank u choice).val = .sym s then .yes else .no := by
  simp only [calcChosen, ensures_bind, ensures_cell, ensures_pure]
  rw [h.solved.result (wf.choice_lt hc) (h.choice choice hc)]
  exact ⟨trivial, rfl⟩

/-- The flag that is known to be up after the value has been worked out. -/
def marked (cfg : Config) (s : Symbol) (x : Cell) : Cell :=
  { x with write := x.write || decide (x.visible ≠ .no ∧ (cfg s).choice = none) }

theorem marked_write {v : Results} (hv : (seen cfg v s x).visible ≠ .no)
    (hc : (cfg s).choice = none) {val : Val} {tri : Tristate} :
    (marked cfg s { seen cfg v s x with val := val, tri := tri }).write = true := by
  rw [marked, hc, decide_eq_true ⟨hv, rfl⟩, Bool.or_true]

/-- The value before a choice is looked into. -/
theorem ensures_calcLogicalValue (wf : WellFormed cfg rank) (hu : u.Fit cfg)
    (ha : Calls cfg rank u again s) (hs : s.isLogical)
    (h : Inside cfg rank u s μ x η ν) (hvis : x.visible = visibleIn cfg (solution cfg rank u) s)
    (hrev : x.revDep = revDepIn cfg (solution cfg rank u) s) (huser : x.user = u s) :
    Ensures (calcLogicalValue cfg again s) ν fun a ξ ↦
      a = logicalIn cfg u (solution cfg rank u) s ∧
      Inside cfg rank u s μ (marked cfg s x) η ξ := by
  have htri := ensures_calcTristate wf hu ha (.inl hs) h hvis hrev huser
  simp only [calcLogicalValue, logicalIn, ensures_bind, ensures_cell, marked]
  rw [h.cell.visible]
  cases hc : (cfg s).choice with
  | none => simpa using htri
  | some choice =>
    simp only [reduceCtorEq, and_false, decide_false, Bool.or_false]
    rw [ensures_ite, ← hvis]
    refine ⟨fun hyes ↦ ?_, fun hno ↦ ?_⟩
    · refine (ensures_calcChosen wf hc h).mono ?_
      rintro a ξ ⟨hξ, hval⟩
      rw [hξ, if_pos hyes]
      exact ⟨hval, h⟩
    · refine htri.mono ?_
      rintro a ξ ⟨hval, h⟩
      rw [if_neg hno]
      exact ⟨hval, h.unmark fun hw ↦ by rw [hw, Bool.true_or]⟩

/-- What is known when the branch for the type of a symbol is through. -/
def Worked (cfg : Config) (rank : Symbol → Nat) (u : Settings) (s : Symbol) (μ : Memory)
    (r : Result) (ν : Memory) : Prop :=
  ∃ x η, Inside cfg rank u s μ x η ν ∧ x.toResult = r ∧
    (r.visible ≠ .no → (cfg s).choice = none → x.write) ∧
    ((cfg s).isChoice → r.tri = .yes → ∀ m ∈ (cfg s).values, Shown cfg rank u s η m)

/-- The branch for the types boolean and tristate. -/
theorem ensures_calcLogical (wf : WellFormed cfg rank) (hu : u.Fit cfg)
    (ha : Calls cfg rank u again s) (hs : s.isLogical) (hμ : (μ s).valid = false)
    (h : Inside cfg rank u s μ (seen cfg (solution cfg rank u) s x) η ν) (huser : x.user = u s) :
    Ensures (calcLogical cfg again s) ν fun _ ξ ↦
      Worked cfg rank u s μ (solution cfg rank u s) ξ := by
  have hput (a : Val) (b : Tristate) {x : Cell} {η ν : Memory}
      (h : Inside cfg rank u s μ x η ν) :=
    h.put wf (.inl hs) (fun c ↦ { c with val := a, tri := b }) (fun c ↦ Edit.ofValue c a b)
      (fun _ _ ↦ rfl) fun _ ↦ rfl
  have heq := (solution_eq wf hu s).trans (resultIn_of_isLogical _ hs)
  have hvis : (solution cfg rank u s).visible = visibleIn cfg (solution cfg rank u) s := by
    rw [solution_eq wf hu, (resultIn_seen _ (.inl hs)).1]
  simp only [calcLogical, ensures_bind, ensures_store, ensures_doIf]
  refine (ensures_calcLogicalValue wf hu ha hs (hput (.text (str "n")) .no h) rfl rfl huser).mono ?_
  rintro tri ζ ⟨htri, h⟩
  have h := hput (.text (str "n")) tri h
  refine ⟨fun hopen ↦ ?_, fun hno ↦ ⟨_, _, h, ?_, ?_, ?_⟩⟩
  · obtain ⟨hc, hyes⟩ := hopen
    rw [if_pos ⟨hc, htri ▸ hyes⟩] at heq
    refine (ensures_symCalcChoice wf hu ha hs h huser hc hyes hμ).mono ?_
    rintro val ω ⟨η', has, hval, hshown, h⟩
    refine ⟨_, η', h.put wf (.inl hs)
        (fun c ↦ { c with val := val })
        (fun _ ↦ ⟨rfl, rfl, fun _ ↦ rfl, id, fun _ ↦ ⟨rfl, rfl, id⟩⟩) (fun _ _ ↦ rfl)
        fun _ ↦ rfl, ?_, ?_, fun _ _ ↦ hshown⟩
    · rw [heq, hval, settled, hyes]
      rfl
    · exact fun hv hc ↦ marked_write (x := x) (hvis.symm.trans_ne hv) hc
  · rw [if_neg fun h ↦ hno ⟨h.1, htri ▸ h.2⟩] at heq
    rw [heq, htri]
    rfl
  · exact fun hv hc ↦ marked_write (x := x) (hvis.symm.trans_ne hv) hc
  · intro hc hyes
    rw [if_neg fun h ↦ hno ⟨h.1, htri ▸ h.2⟩] at heq
    rw [heq] at hyes
    exact absurd ⟨hc, htri.trans hyes⟩ hno

/-! ### The types with a text -/

/-- The number that a symbol stands for in a range. -/
theorem ensures_symGetRangeVal (wf : WellFormed cfg rank) (hu : u.Fit cfg)
    (ha : Calls cfg rank u again s) (h : Inside cfg rank u s μ x η ν) (ht : Below rank s t)
    (hc : (cfg t).isChoice = false) (base : Nat) :
    Ensures (symGetRangeVal again t base) ν fun a ξ ↦
      a = rangeValIn (solution cfg rank u) t base ∧ Inside cfg rank u s μ x η ξ := by
  obtain ⟨y, hy⟩ := exists_solution_text (u := u) wf hu hc ht.2
  simp only [symGetRangeVal, ensures_bind, ensures_cell]
  refine ((Inside.reader wf hu ha).run t ν ht h).mono ?_
  rintro _ ξ ⟨h, -, hvalid⟩
  have hval : (ξ t).val = .text y := by rw [← hy, ← h.solved.result ht.1 hvalid]
  rw [hval, rangeValIn, hy, textOf, ensures_pure, ensures_pure]
  exact ⟨rfl, h⟩

/-- The value is brought into the range. -/
theorem ensures_symValidateRange (wf : WellFormed cfg rank) (hu : u.Fit cfg)
    (ha : Calls cfg rank u again s) (hs : s.isText) {text : Bytes} (hx : x.val = .text text)
    (h : Inside cfg rank u s μ x η ν) :
    Ensures (symValidateRange cfg again s) ν fun _ ξ ↦ Inside cfg rank u s μ
      { x with val := .text (clampIn cfg (solution cfg rank u) s text) } η ξ := by
  obtain ⟨-, -, -, -, hranges, -, hbounds⟩ :=
    Decl.forall_mem_symbols.mp (below_of_mem wf (s := s))
  have hsame : { x with val := .text text } = x := by rw [← hx]
  unfold symValidateRange clampIn
  cases baseOf s.type with
  | none =>
    rw [hsame]
    exact ensures_pure.mpr h
  | some base =>
    simp only [symGetRangeProp, ensures_bind]
    refine ((Inside.reader wf hu ha).firstVisible hranges h).mono ?_
    rintro prop ξ ⟨hprop, h, -⟩
    rcases prop with _ | ⟨range, v⟩
    · rw [← hprop, hsame]
      exact ensures_pure.mpr h
    · obtain ⟨c, hmem, -⟩ := mem_of_firstVisibleIn hprop.symm
      obtain ⟨hlow, hhigh⟩ := wf.range s _ hmem
      have hbelow (t : Symbol) (ht : t ∈ [range.1, range.2]) : Below rank s t :=
        hbounds t (List.mem_flatMap.mpr ⟨_, hmem, ht⟩)
      have hput (i : Int) {ξ : Memory} (h : Inside cfg rank u s μ x η ξ) :=
        h.put wf (.inr hs) (fun c ↦ { c with val := .text (rangeText s.type i) })
          (fun _ ↦ ⟨rfl, rfl, fun _ ↦ rfl, id, fun _ ↦ ⟨rfl, rfl, id⟩⟩) (fun _ _ ↦ rfl)
          fun _ ↦ rfl
      have hval : (ξ s).val = .text text := by
        obtain ⟨w, -, hcell⟩ := h.cell
        rw [hcell, hx]
      rw [← hprop]
      simp only [ensures_bind, ensures_cell, hval, textOf, ensures_pure]
      refine (ensures_symGetRangeVal wf hu ha h (hbelow _ List.mem_cons_self) hlow base).mono ?_
      rintro low ζ ⟨hl, h⟩
      rw [← hl, ensures_ite]
      refine ⟨fun hge ↦ ?_, fun hlt ↦ ?_⟩
      · rw [if_neg (not_lt.mpr hge), ensures_bind]
        refine (ensures_symGetRangeVal wf hu ha h
          (hbelow _ (List.mem_cons_of_mem _ List.mem_cons_self)) hhigh base).mono ?_
        rintro high ω ⟨hh, h⟩
        rw [← hh, ensures_doIf, ensures_store]
        refine ⟨fun hgt ↦ ?_, fun hle ↦ ?_⟩
        · rw [if_pos hgt]
          exact hput high h
        · rw [if_neg hle, hsame]
          exact h
      · rw [if_pos (not_le.mp hlt), ensures_store]
        exact hput low h

/-- The branch for the types with a text. -/
theorem ensures_calcTextual (wf : WellFormed cfg rank) (hu : u.Fit cfg)
    (ha : Calls cfg rank u again s) (hs : s.isText)
    (h : Inside cfg rank u s μ (seen cfg (solution cfg rank u) s x) η ν) (huser : x.user = u s) :
    Ensures (do calcTextual cfg again s; symValidateRange cfg again s) ν fun _ ξ ↦
      Worked cfg rank u s μ (solution cfg rank u s) ξ := by
  have hput (a : Val) {x : Cell} {η ν : Memory} (h : Inside cfg rank u s μ x η ν) :=
    h.put wf (.inr hs) (fun c ↦ { c with val := a, tri := .no }) (fun c ↦ Edit.ofValue c a .no)
      (fun _ _ ↦ rfl) fun _ ↦ rfl
  obtain ⟨-, hchoice, hvalue⟩ := wf.of_isText hs
  have heq := (solution_eq wf hu s).trans (resultIn_of_isText _ hs)
  simp only [calcTextual, ensures_bind, ensures_store]
  refine (ensures_calcText wf hu ha hs (hput (.text []) h) rfl huser).mono ?_
  rintro val ζ ⟨hval, h⟩
  have h := hput val h
  refine (ensures_symValidateRange wf hu ha hs hval h).mono
    fun _ ω h ↦ ⟨_, _, h, ?_, fun hv _ ↦ ?_, fun hc ↦ absurd hc (by simp [hchoice])⟩
  · rw [heq]
    rfl
  · rw [heq] at hv
    exact (Bool.or_eq_true _ _).mpr (.inr (decide_eq_true hv))

/-! ### The symbol as a whole -/

/-- The values of a choice that are visible are written. -/
theorem ensures_writeValues (wf : WellFormed cfg rank) (hμ : (μ s).valid = false)
    (h : Inside cfg rank u s μ x η ν) :
    Ensures (forM (cfg s).values (writeValue s)) ν fun _ ξ ↦ Inside cfg rank u s μ x η ξ ∧
      ∀ m ∈ (cfg s).values, x.write → (η m).visible ≠ .no → (ξ m).write := by
  refine (ensures_forM (P := fun m ξ ↦ x.write → (η m).visible ≠ .no → (ξ m).write) h
    fun m hm ξ h ↦ ?_).mono fun _ ω h ↦ ⟨h.1, h.2.1⟩
  have hvis := (h.values m hm).visible
  simp only [writeValue, ensures_bind, ensures_cell, ensures_doIf, ensures_store]
  refine ⟨fun hup ↦ ?_, fun hno ↦ ⟨h, fun hw hv ↦ ?_, fun _ hb ↦ hb⟩⟩
  · have hstore := h.storeValue wf hμ hm (ξ m).visible true
      (y := η m) (fun _ ↦ rfl) ?_
    · rw [Function.update_eq_self] at hstore
      refine ⟨hstore, fun _ _ ↦ by rw [Function.update_self], fun b hb hwb hvb ↦ ?_⟩
      by_cases hbm : b = m
      · rw [hbm, Function.update_self]
      · rw [Function.update_of_ne hbm]
        exact hb hwb hvb
    · obtain ⟨w, _, hcell⟩ := h.values m hm
      exact ⟨true, fun _ ↦ rfl, by rw [hcell]⟩
  · exact absurd ⟨h.cell.write hw, hvis.trans_ne hv⟩ hno

/-- What has been done for a symbol that stands above is kept. -/
theorem Done.of_same {v : Results} (wf : WellFormed cfg rank) (h : Done cfg v μ t)
    (hg : Grows μ ν) (heq : ν t = μ t) (hvalid : (μ t).valid)
    (hsame : ∀ m ∈ (cfg t).values, Same cfg μ ν m) : Done cfg v ν t := by
  refine ⟨by rw [heq, h.result], fun c hc ↦ hg c (h.choice c hc), by rw [heq]; exact h.write,
    fun hc hyes hvis m hm hshown ↦ ?_⟩
  rw [(hsame m hm).eq fun c hc ↦ ?_]
  · exact h.values hc hyes hvis m hm hshown
  · rw [(wf.choice_iff t m).mpr hm] at hc
    rwa [← Option.some.inj hc]

/-- A calculation that has come to its end leaves what a call is to leave. -/
theorem Inside.finish (wf : WellFormed cfg rank) (hR : rank s < R) (hμ : Solved cfg rank u R μ)
    (hs : (μ s).valid = false) (h : Inside cfg rank u s μ x η ν)
    (hdone : Done cfg (solution cfg rank u) ν s) :
    Solved cfg rank u R ν ∧ Step cfg rank R μ ν ∧ (ν s).valid := by
  refine ⟨⟨h.solved.toKept, fun t ht hlt ↦ ?_⟩, ⟨h.grows, fun t ht ↦ h.same t ?_ ?_⟩, ?_⟩
  · by_cases hts : t = s
    · rw [hts]
      exact hdone
    by_cases hlow : rank t < rank s
    · exact h.solved.done t ht hlow
    have hsame := h.same t (not_lt.mp hlow) hts
    rw [hsame.valid] at ht
    have hmu := hμ.done t ht hlt
    refine hmu.of_same wf h.grows (hsame.eq hmu.choice) ht fun m hm ↦ ?_
    have hm' := wf.of_mem_values hm
    refine h.same m ((not_lt.mp hlow).trans hm'.1.le) ?_
    rintro rfl
    exact hlow hm'.1
  · exact hR.le.trans ht
  · rintro rfl
    exact absurd hR (not_lt.mpr ht)
  · rw [h.cell.valid]
    exact h.valid

/-- The type has no range. -/
theorem Symbol.baseOf_eq_none (h : s.isLogical) : baseOf s.type = none := by
  unfold Symbol.isLogical at h
  cases hs : s.type <;> simp_all [baseOf]

/-- What the user has set is read before anything is written there. -/
theorem Kept.user_eq (h : Kept cfg u μ) (hs : (μ s).valid = false) : (μ s).user = u s := by
  obtain ⟨htri, hval, hhas⟩ := h.user s
  calc (μ s).user = ⟨(μ s).user.has, (μ s).user.tri, (μ s).user.val⟩ := rfl
    _ = u s := by rw [htri, hval, hhas (.inl hs)]

theorem Kept.not_constant (h : Kept cfg u μ) (hs : (μ s).valid = false) :
    s ≠ .yes ∧ s ≠ .mod ∧ s ≠ .no := by
  refine ⟨fun hc ↦ ?_, fun hc ↦ ?_, fun hc ↦ ?_⟩ <;>
    exact absurd (h.constant s (by simp [hc])).1 (by simp [hs])

theorem Solved.mono {R' : Nat} (h : Solved cfg rank u R μ) (hR : R' ≤ R) :
    Solved cfg rank u R' μ :=
  ⟨h.toKept, fun t ht hlt ↦ h.done t ht (hlt.trans_le hR)⟩

/-- A symbol is marked as valid. -/
theorem Solved.begin (wf : WellFormed cfg rank) (h : Solved cfg rank u (rank s) μ)
    (hs : (μ s).valid = false) (hx : Edit cfg s (μ s) x) (hvalid : x.valid)
    (hother : s.isLogical = false → s.isText = false →
      x.visible = (μ s).visible ∧ x.dirDep = (μ s).dirDep ∧ x.revDep = (μ s).revDep) :
    Solved cfg rank u (rank s) (Function.update μ s x) ∧ Grows μ (Function.update μ s x) ∧
      ∀ t, rank s ≤ rank t → t ≠ s → Same cfg μ (Function.update μ s x) t := by
  refine ⟨h.store wf (Nat.le_refl _) (h.not_constant hs) hother (.inl hvalid) hx,
    fun a ha ↦ ?_, fun t _ hne ↦ .inl (Function.update_of_ne hne _ _)⟩
  by_cases has : a = s
  · rw [has, Function.update_self]
    exact hvalid
  · rwa [Function.update_of_ne has]

/-- A symbol with a type. -/
theorem ensures_calcTyped (wf : WellFormed cfg rank) (hu : u.Fit cfg)
    (ha : Calls cfg rank u again s) (hR : rank s < R) (hμ : Solved cfg rank u R μ)
    (hs : s.isLogical ∨ s.isText) (hvalid : (μ s).valid = false) {w : Bool}
    (hw : (cfg s).isChoiceValue → (μ s).write → w) :
    Ensures (calcTyped cfg again s)
      (Function.update μ s { μ s with valid := true, write := w }) fun _ ν ↦
      Solved cfg rank u R ν ∧ Step cfg rank R μ ν ∧ (ν s).valid := by
  obtain ⟨hbegin, hgrows, hsame⟩ := (hμ.mono hR.le).begin wf hvalid
    (x := { μ s with valid := true, write := w })
    ⟨rfl, rfl, fun _ ↦ rfl, fun _ ↦ rfl, fun h ↦ ⟨rfl, rfl, hw h⟩⟩ rfl fun _ _ ↦ ⟨rfl, rfl, rfl⟩
  have huser := hμ.user_eq hvalid
  simp only [calcTyped, ensures_bind]
  refine (ensures_symCalcVisibility wf hu ha hs hbegin (by rw [Function.update_self]) hgrows
    hsame).mono fun _ ξ h ↦ ?_
  rw [Function.update_self] at h
  have hworked : Ensures (calcBranch cfg again s) ξ fun _ ζ ↦
      Ensures (symValidateRange cfg again s) ζ fun _ ω ↦
        Worked cfg rank u s μ (solution cfg rank u s) ω := by
    rw [calcBranch, ensures_ite]
    refine ⟨fun htext ↦ ?_, fun htext ↦ ?_⟩
    · exact ensures_bind.mp (ensures_calcTextual wf hu ha htext h huser)
    · refine (ensures_calcLogical wf hu ha (hs.resolve_right htext) hvalid h huser).mono
        fun _ ζ h ↦ ?_
      rw [symValidateRange, Symbol.baseOf_eq_none (hs.resolve_right htext)]
      exact ensures_pure.mpr h
  refine hworked.mono fun _ ζ h ↦ h.mono ?_
  rintro _ ω ⟨x, η, h, hx, hmark, hshown⟩
  refine (ensures_writeValues wf hvalid h).mono ?_
  rintro _ κ ⟨h, hvalues⟩
  have hdone {y : Cell} {ν : Memory} (h : Inside cfg rank u s μ y η ν)
      (hy : y.toResult = x.toResult)
      (hwrite : (cfg s).auto = false → x.write → y.write)
      (hkept : ∀ m ∈ (cfg s).values, (κ m).write → (ν m).write) :
      Done cfg (solution cfg rank u) ν s := by
    refine ⟨?_, h.choice, fun hc hauto _ hv ↦ h.cell.write (hwrite hauto (hmark hv hc)),
      fun hc hyes hv m hm hm' ↦ hkept m hm (hvalues m hm (hmark hv (wf.choice s hc).2.1) ?_)⟩
    · obtain ⟨b, _, hcell⟩ := h.cell
      rw [hcell, ← hx, ← hy]
    · rw [hshown hc hyes m hm, visibleIn_opened wf ((wf.choice_iff s m).mpr hm) hyes]
      exact hm'
  rw [ensures_doIf, ensures_store]
  refine ⟨fun hauto ↦ ?_, fun _ ↦ ?_⟩
  · have hvalue : ¬ (cfg s).isChoiceValue := by
      intro hc
      obtain ⟨c, hc⟩ := Option.isSome_iff_exists.mp hc
      rw [(wf.value c s hc).2.1] at hauto
      cases hauto
    have h := h.store wf hs (c := { κ s with write := false }) (y := { x with write := false })
      ⟨rfl, rfl, fun _ ↦ rfl, id, fun hc ↦ absurd hc hvalue⟩ ?_
    · refine h.finish wf hR hμ hvalid (hdone h rfl (fun hno ↦ ?_) fun m hm hw ↦ ?_)
      · rw [hauto] at hno
        cases hno
      · rwa [Function.update_of_ne (wf.of_mem_values hm).2.1]
    · obtain ⟨b, _, hcell⟩ := h.cell
      exact ⟨false, id, by rw [hcell]⟩
  · exact h.finish wf hR hμ hvalid (hdone h rfl (fun _ ↦ id) fun _ _ ↦ id)

/-- A symbol that is not valid. -/
theorem ensures_calcSymbol (wf : WellFormed cfg rank) (hu : u.Fit cfg)
    (ha : Calls cfg rank u again s) (hR : rank s < R) (hμ : Solved cfg rank u R μ)
    (hvalid : (μ s).valid = false) :
    Ensures (calcSymbol cfg again s) μ fun _ ν ↦
      Solved cfg rank u R ν ∧ Step cfg rank R μ ν ∧ (ν s).valid := by
  simp only [calcSymbol, ensures_bind, ensures_store, ensures_ite, ensures_doIf,
    Function.update_self, Function.update_idem, Bool.or_eq_true]
  refine ⟨fun hs ↦ ⟨fun hno ↦ ?_, fun _ ↦ ?_⟩, fun hs ↦ ?_⟩
  · exact ensures_calcTyped wf hu ha hR hμ hs hvalid fun hc ↦ absurd hc hno
  · exact ensures_calcTyped wf hu ha hR hμ hs hvalid fun _ ↦ id
  · obtain ⟨hl, ht⟩ : s.isLogical = false ∧ s.isText = false := by simpa using hs
    have hchoice : ∀ c, (cfg s).choice ≠ some c := by
      intro c hc
      rw [(wf.value c s hc).1] at hl
      cases hl
    have hnone : (cfg s).isChoice = false := isChoice_of_not_isLogical wf hl
    have hvalues : (cfg s).values = [] := by
      rw [Decl.isChoice, Option.isSome_eq_false_iff, Option.isNone_iff_eq_none] at hnone
      rw [Decl.values, hnone]
      rfl
    obtain ⟨hsolved, hgrows, hsame⟩ := (hμ.mono hR.le).begin wf hvalid
      (x := { μ s with valid := true, val := s.nameVal, tri := .no })
      ⟨rfl, rfl, fun _ ↦ rfl, fun _ ↦ rfl, fun _ ↦ ⟨rfl, rfl, id⟩⟩ rfl fun _ _ ↦ ⟨rfl, rfl, rfl⟩
    have h : Inside cfg rank u s μ _ μ _ := ⟨hsolved, hgrows, hsame,
      by rw [Function.update_self]; exact Known.refl _,
      fun m hm ↦ absurd hm (by simp [hvalues]), rfl, fun c hc ↦ absurd hc (hchoice c)⟩
    have hend := h.finish wf hR hμ hvalid ⟨?_, h.choice, fun _ _ htyped ↦ ?_, fun hc ↦ ?_⟩
    · exact ⟨hend.1, hend.2.1, trivial⟩
    · obtain ⟨hv, hd, hr⟩ := hμ.other s hl ht
      have hresult : Result.mk s.nameVal .no (μ s).visible (μ s).dirDep (μ s).revDep =
          ⟨s.nameVal, .no, .no, .no, .no⟩ := by rw [hv, hd, hr]
      rw [Function.update_self, solution_eq wf hu,
        resultIn_of_other _ (hμ.not_constant hvalid) hl ht]
      exact hresult
    · simp [hl, ht] at htyped
    · rw [hnone] at hc
      cases hc

/-- Whatever has been worked out already, and whatever is being worked out above it, a symbol gets
the value of the solution. -/
theorem ensures_symCalcValue (wf : WellFormed cfg rank) (hu : u.Fit cfg) {fuel : Nat}
    (hfuel : rank s + 1 < fuel) (hR : rank s < R) (hμ : Solved cfg rank u R μ) :
    Ensures (symCalcValue cfg fuel s) μ fun _ ν ↦
      Solved cfg rank u R ν ∧ Step cfg rank R μ ν ∧ (ν s).valid := by
  induction fuel generalizing s R μ with
  | zero => exact absurd hfuel (Nat.not_lt_zero _)
  | succ fuel ih =>
    simp only [symCalcValue, ensures_bind, ensures_cell, ensures_doIf]
    refine ⟨fun hno ↦ ?_, fun hyes ↦ ⟨hμ, Step.refl cfg rank R μ, by simpa using hyes⟩⟩
    refine ensures_calcSymbol wf hu ⟨fun t ξ ht hξ ↦ ?_, fun t ξ ht ↦ ?_⟩ hR hμ (by simpa using hno)
    · exact ih (by omega) ht hξ
    · obtain ⟨n, rfl⟩ : ∃ n, fuel = n + 1 := ⟨fuel - 1, by omega⟩
      simp [symCalcValue, ensures_doIf, ht]

end MotionPie.Support.Kconfig
