import MotionPie.Support.Download.Exposure

/-!
# When a completed download is lost

A process that has found a wrong hash removes the output later, with no second look, while
another process may have installed a verified download in between. Apart from that command
nothing takes a verified output away: the invariant relates how far a process is with its
check of the output to the content that the output has now.
-/

namespace MotionPie.Support.Download

open Base

/-- The output is present, and check-hash accepts it. -/
def Verified (h : Hashes) (output : Option Content) : Prop :=
  ∃ x, output = some x ∧ checkHash h x = 0

instance (h : Hashes) (output : Option Content) : Decidable (Verified h output) :=
  decidable_of_iff (output.any (checkHash h · = 0) = true) (by simp [Verified, Option.any_eq_true])

/-- The step is no removal of an output that check-hash accepts,
`support/download/dl-wrapper:62`. -/
def Spares (h : Hashes) (s : State) (a : Nat × Ending) : Prop :=
  s.pc a.1 = .rmOutput → a.2 = .ok → ¬ Verified h s.files.output

instance (h : Hashes) (s : State) (a : Nat × Ending) : Decidable (Spares h s a) :=
  inferInstanceAs (Decidable (_ → _ → ¬ _))

/-! ### A check of an output that changes -/

/-- The lines, those in `left` last, cannot all accept a missing file. -/
def Doomed (h : Hashes) (lines left : List HashLine) : Prop :=
  ¬ h.Enough lines ∨ ∃ l ∈ left, h.names l = true ∧ checkOneHash h l none ≠ 0

/-- What the lines that a check has passed say about the output as it is now. -/
def Stands (h : Hashes) (output : Option Content) (c : Check) : Prop :=
  ∃ before, h.hFile = some (before ++ c.lines) ∧ c.nbChecks = before.countP h.names ∧
    match output with
    | some x => h.Passes (some x) before
    | none => Doomed h (before ++ c.lines) c.lines

/-- The check will only exit with 0 while the output is verified. -/
def Finds (h : Hashes) (output : Option Content) : Progress → Prop
  | .running c => Stands h output c
  | .exited code => code = 0 → Verified h output

section Finds

variable {h : Hashes} {c : Check} {output : Option Content} {prog : Progress} {x y : Content}

/-- A file that is missing passes no hash that a content fails. -/
private theorem checkOneHash_none {l : HashLine} (hname : h.names l = true)
    (hx : checkOneHash h l (some x) ≠ 0) : checkOneHash h l none ≠ 0 := by
  have hfile : l.file = h.base := by
    simp only [Hashes.names, Bool.and_eq_true, decide_eq_true_eq] at hname
    exact hname.2
  have hhash : h.sum l.type none ≠ l.hash := by
    simp only [Hashes.sum, Option.map_none, Option.getD_none]
    exact (l.hash_ne (hfile ▸ h.base_ne)).symm
  unfold checkOneHash at hx ⊢
  split
  · next hnone => exact absurd (if_pos hnone) hx
  · split
    · exact Nat.succ_ne_zero _
    · exact Nat.succ_ne_zero _

/-- A check of a present output starts. -/
private theorem Finds.start : Finds h (some x) (startCheck h) := by
  unfold startCheck
  split
  · next hl =>
    refine fun _ ↦ ⟨x, rfl, checkHash_eq_zero.mpr fun lines hlines ↦ ?_⟩
    rw [hl] at hlines
    cases hlines
  · next lines hl => exact ⟨[], hl, rfl, fun _ hk ↦ absurd hk List.not_mem_nil⟩

private theorem Finds.step_some (hs : Finds h (some x) (.running c)) :
    Finds h (some x) (stepCheck h c (some x)) := by
  have hp : c.Passed h (some x) := hs
  cases hprog : stepCheck h c (some x) with
  | running c' => exact hp.step hprog
  | exited code =>
    rintro rfl
    obtain ⟨lines, hl, hpass⟩ := hp.exit hprog
    refine ⟨x, rfl, checkHash_eq_zero.mpr ?_⟩
    rw [hl]
    rintro lines' ⟨⟩
    exact hpass

private theorem Finds.step_none (hs : Finds h none (.running c)) :
    Finds h none (stepCheck h c none) := by
  obtain ⟨before, hl, hn, hdoom⟩ := hs
  rcases c with ⟨_ | ⟨l, lines⟩, nbChecks⟩
  · -- no line is left, so there are not enough
    have hno : ¬ h.Enough before := by
      rcases hdoom with hno | ⟨l, hl, -⟩
      · simpa using hno
      · cases hl
    have hzero : nbChecks = 0 ∧ ¬ h.noCheck = true := by
      by_contra hnot
      rw [show nbChecks = _ from hn] at hnot
      exact hno (enough_iff.mp hnot)
    intro hcode
    simp [hzero] at hcode
  · simp only at hl hn hdoom
    have hlines : h.hFile = some ((before ++ [l]) ++ lines) := by simp [hl]
    have hrest : checkOneHash h l none = 0 ∨ h.names l = false →
        Doomed h ((before ++ [l]) ++ lines) lines := by
      intro hpass
      rcases hdoom with hno | ⟨k, hk, hname, hfail⟩
      · exact .inl (by simpa using hno)
      · rcases List.mem_cons.mp hk with rfl | hk
        · rcases hpass with hzero | hother
          · exact absurd hzero hfail
          · rw [hname] at hother
            cases hother
        · exact .inr ⟨k, hk, hname, hfail⟩
    simp only [stepCheck]
    split
    · next hname =>
      split
      · next hzero => exact ⟨before ++ [l], hlines, by simp [hname, hn], hrest (.inl hzero)⟩
      · next hcode => exact fun hzero ↦ absurd hzero hcode
    · next hname =>
      exact ⟨before ++ [l], hlines, by simp [hname, hn], hrest (.inr (by simpa using hname))⟩

/-- A turn of the loop, on whatever the output is. -/
theorem Finds.step (hs : Finds h output (.running c)) : Finds h output (stepCheck h c output) := by
  cases output with
  | some x => exact hs.step_some
  | none => exact hs.step_none

/-- Another process removes an output that check-hash does not accept. -/
theorem Finds.removed (hs : Finds h output prog) (hno : ¬ Verified h output) :
    Finds h none prog := by
  cases prog with
  | exited code => exact fun hcode ↦ absurd (hs hcode) hno
  | running c =>
    cases output with
    | none => exact hs
    | some x =>
      obtain ⟨before, hl, hn, hpass⟩ := hs
      refine ⟨before, hl, hn, ?_⟩
      by_contra hdoom
      simp only [Doomed, not_or, not_not, not_exists, not_and] at hdoom
      refine hno ⟨x, rfl, checkHash_eq_zero.mpr ?_⟩
      rw [hl]
      rintro lines ⟨⟩
      refine ⟨fun l hmem hname ↦ ?_, hdoom.1⟩
      rcases List.mem_append.mp hmem with hb | hc
      · exact hpass l hb hname
      · by_contra hfail
        exact checkOneHash_none hname hfail (hdoom.2 l hc hname)

/-- Another process installs a content that check-hash accepts. -/
theorem Finds.installed (hs : Finds h output prog) (hy : checkHash h y = 0) :
    Finds h (some y) prog := by
  cases prog with
  | exited code => exact fun _ ↦ ⟨y, rfl, hy⟩
  | running c =>
    obtain ⟨before, hl, hn, -⟩ := hs
    have hall := (checkHash_eq_zero.mp hy _ hl).1
    exact ⟨before, hl, hn, fun l hmem ↦ hall l (List.mem_append_left _ hmem)⟩

end Finds

/-! ### The invariant -/

/-- What the place of a process says about the output. -/
def Knows (h : Hashes) (output : Option Content) : Pc → Prop
  | .startOutput => Finds h output (startCheck h)
  | .checkOutput c => Finds h output (.running c)
  | .exited code => Finds h output (.exited code)
  | _ => True

section Command

variable {h : Hashes} {p : Nat} {log ev : List Event} {pc pc' : Pc} {fs fs' : Files} {e : Ending}

private theorem Finds.knows {prog : Progress} (hs : Finds h fs.output prog) :
    Knows h fs.output (ofProgress .checkOutput afterCheckOutput prog) := by
  cases prog with
  | running c => exact hs
  | exited code =>
    match code with
    | 0 => exact hs
    | 2 => trivial
    | 1 | _ + 3 => exact fun hcode ↦ by cases hcode

private theorem knows_checkTmpf {d : Nat} {prog : Progress} {output : Option Content} :
    Knows h output (ofProgress (.checkTmpf d) (afterCheckTmpf d) prog) := by
  cases prog with
  | running c => trivial
  | exited code => cases code <;> trivial

/-- A command of the process keeps what its place says. -/
theorem command_knows (hh : Holds h p fs log pc) (hk : Knows h fs.output pc)
    (hc : command h p fs pc e = some (pc', fs', ev)) : Knows h fs'.output pc' := by
  cases pc <;> cases e <;> try (simp only [command, reduceCtorEq] at hc; done)
  all_goals try
    (simp only [command, Option.some.injEq, Prod.mk.injEq] at hc; obtain ⟨rfl, rfl, -⟩ := hc)
  all_goals try
    (simp only [command, Option.ite_none_right_eq_some, Option.some.injEq, Prod.mk.injEq] at hc
     obtain ⟨-, rfl, rfl, -⟩ := hc)
  -- the next command does not depend on the output, or the exit code is 1
  all_goals try exact trivial
  all_goals try exact fun hcode ↦ by cases hcode
  case testOutput.ok =>
    split
    · next hsome =>
      obtain ⟨x, hx⟩ := Option.isSome_iff_exists.mp hsome
      rw [hx]
      exact Finds.start
    · trivial
  case startOutput.ok => exact Finds.knows hk
  case checkOutput.ok => exact (Finds.step hk).knows
  case startTmpf.ok => exact knows_checkTmpf
  case checkTmpf.ok => exact knows_checkTmpf
  case openTmpf.ok =>
    simp only [command] at hc
    split at hc <;> cases hc <;> trivial
  case mv.ok =>
    obtain ⟨x, hx, hdel⟩ := hh
    simp only [command, hx, Option.some.injEq, Prod.mk.injEq] at hc
    obtain ⟨rfl, rfl, -⟩ := hc
    exact fun _ ↦ ⟨x, rfl, hdel.2⟩

/-- A command of another process keeps it too, if it spares the output. -/
private theorem Knows.frame (hk : Knows h fs.output pc')
    (hm : fs'.output = fs.output ∨ (fs'.output = none ∧ ¬ Verified h fs.output) ∨
      Verified h fs'.output) : Knows h fs'.output pc' := by
  have hfinds : ∀ prog, Finds h fs.output prog → Finds h fs'.output prog := by
    intro prog hs
    rcases hm with hsame | ⟨hnone, hno⟩ | ⟨y, hy, hzero⟩
    · exact hsame ▸ hs
    · exact hnone ▸ hs.removed hno
    · exact hy ▸ hs.installed hzero
  cases pc' with
  | startOutput => exact hfinds _ hk
  | checkOutput c => exact hfinds (.running c) hk
  | exited code => exact hfinds (.exited code) hk
  | _ => trivial

end Command

/-- Every process's place says the truth about the output. -/
def Kept (h : Hashes) (s : State) : Prop := ∀ p, Knows h s.files.output (s.pc p)

section Runs

variable {h : Hashes} {output : Option Content} {s s' : State} {a : Nat × Ending}

/-- A step that spares the output keeps the invariant. -/
theorem Kept.step (hk : Kept h s) (hi : Inv h output s) (hspares : Spares h s a)
    (hs : step h s a = some s') : Kept h s' := by
  obtain ⟨pc', fs', ev, hc, rfl⟩ := step_eq_some hs
  intro q
  change Knows h fs'.output (Function.update s.pc a.1 pc' q)
  by_cases hq : q = a.1
  · subst hq
    rw [Function.update_self]
    exact command_knows (hi.holds _) (hk _) hc
  · rw [Function.update_of_ne hq]
    apply (hk q).frame
    rcases (command_moved (hi.tmpd a.1) (hi.tmpOutput a.1) (hi.holds a.1) hc).output with
      hsame | ⟨hpc, he, hnone⟩ | ⟨y, hy, hdel⟩
    · exact .inl hsame
    · exact .inr (.inl ⟨hnone, hspares hpc he⟩)
    · exact .inr (.inr ⟨y, hy, hdel.2⟩)

/-- A process that has exited stays so. -/
private theorem exited_step {p code : Nat} (hp : s.pc p = .exited code)
    (hs : step h s a = some s') : s'.pc p = .exited code := by
  obtain ⟨pc', fs', ev, hc, rfl⟩ := step_eq_some hs
  change Function.update s.pc a.1 pc' p = .exited code
  rw [Function.update_of_ne ?_, hp]
  rintro rfl
  rw [hp] at hc
  cases hc

/-- In a run whose steps spare the output, it is verified from the first exit with 0 on. The
next step keeps it so exactly when it spares the output too. -/
theorem verified_iff_spares {as bs : List (Nat × Ending)} {s₁ : State} {p : Nat}
    (hrun : execute (step h) (initial output) as = some s₁) (hp : s₁.pc p = .exited 0)
    (hlater : execute (step h) s₁ bs = some s)
    (hmeets : Meets (step h) (Spares h) (initial output) (as ++ bs)) :
    Verified h s.files.output ∧
      ∀ a s', step h s a = some s' → (Verified h s'.files.output ↔ Spares h s a) := by
  have hinv : Inv h output s ∧ Kept h s := by
    refine execute_inv_of_meets (fun s ↦ Inv h output s ∧ Kept h s) (fun s a s' hs hspares hstep ↦
      ⟨hs.1.step hstep, hs.2.step hs.1 hspares hstep⟩) ⟨inv_initial h output, fun _ ↦ trivial⟩ hmeets
      (execute_append.mpr ⟨s₁, hrun, hlater⟩)
  have hexit : s.pc p = .exited 0 :=
    execute_inv (fun s ↦ s.pc p = .exited 0) (fun _ _ _ hp hs ↦ exited_step hp hs) hp hlater
  have hver : ∀ s : State, s.pc p = .exited 0 → Kept h s → Verified h s.files.output := by
    intro s hp hk
    have hfinds := hk p
    rw [hp] at hfinds
    exact hfinds rfl
  refine ⟨hver s hexit hinv.2, fun a s' hstep ↦ ⟨fun hv hpc he _ ↦ ?_, fun hspares ↦ ?_⟩⟩
  · obtain ⟨pc', fs', ev, hc, rfl⟩ := step_eq_some hstep
    rw [hpc, he] at hc
    cases hc
    obtain ⟨x, hx, -⟩ := hv
    cases hx
  · exact hver s' (exited_step hexit hstep) (hinv.2.step hinv.1 hspares hstep)

end Runs

/-! ### A stale verdict -/

/-- A process finds the output missing, and downloads it. -/
theorem verified_iff_spares_curl : ∃ s,
    execute (step curlHashes) (initial none) ((0, .ok) :: fetch 0) = some s ∧
      s.pc 0 = .exited 0 ∧ Verified curlHashes s.files.output ∧
        ∀ a s', step curlHashes s a = some s' →
          (Verified curlHashes s'.files.output ↔ Spares curlHashes s a) :=
  have ⟨s, hrun, hx⟩ := (Option.any_eq_true (fun s : State ↦ s.pc 0 = .exited 0)
    (execute (step curlHashes) (initial none) ((0, .ok) :: fetch 0))).mp (by decide +kernel)
  ⟨s, hrun, of_decide_eq_true hx,
    verified_iff_spares hrun (of_decide_eq_true hx) (execute_nil s) (by decide +kernel)⟩

/-- Two processes find the same wrong hash; one of them replaces the output. -/
def replaced : List (Nat × Ending) :=
  [(1, .ok), (1, .ok), (1, .ok), (0, .ok), (0, .ok), (0, .ok), (0, .ok)] ++ fetch 0

/-- The other one then removes the download. -/
theorem replaced_removed : ∃ s s',
    execute (step curlHashes) (initial (some [])) replaced = some s ∧ s.pc 0 = .exited 0 ∧
      Verified curlHashes s.files.output ∧
      execute (step curlHashes) s [(1, .ok)] = some s' ∧ s'.files.output = none :=
  have ⟨s, hrun, hx⟩ := (Option.any_eq_true (fun s : State ↦ s.pc 0 = .exited 0 ∧
    Verified curlHashes s.files.output ∧
      (execute (step curlHashes) s [(1, .ok)]).any (·.files.output = none))
    (execute (step curlHashes) (initial (some [])) replaced)).mp (by decide +kernel)
  have ⟨hexit, hver, hnext⟩ := of_decide_eq_true hx
  have ⟨s', hstep, hnone⟩ := Option.any_eq_true _ _ |>.mp hnext
  ⟨s, s', hrun, hexit, hver, hstep, of_decide_eq_true hnone⟩

end MotionPie.Support.Download
