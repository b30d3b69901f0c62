import MotionPie.Base.Ledger
import MotionPie.Support.Download.Exposure

/-!
# What dl-wrapper leaves behind

The script runs under `set -e`, and removes its temporaries in the branches for a backend, a
check-hash, a `cat` and an `mv` that fail. Every other command that fails ends the script at
once. Each process has one temporary directory and one temporary output in hand at most; a
ledger for each kind remembers who has made what.
-/

namespace MotionPie.Support.Download

open Base

/-- A state, and the process that has made each temporary last. -/
structure Traced where
  state : State
  tmpdBy : Nat → Option Nat
  tmpOutputBy : Nat → Option Nat

/-- Who has made the temporary directories, after a command of process `p`. -/
def tmpdMaker (p : Nat) (maker : Nat → Option Nat) : Pc → Ending → Nat → Option Nat
  | .mktempDir, .name d => Function.update maker d (some p)
  | _, _ => maker

/-- Who has made the temporary outputs, after a command of process `p`. -/
def tmpOutputMaker (p : Nat) (maker : Nat → Option Nat) : Pc → Ending → Nat → Option Nat
  | .mktempOutput _, .name o => Function.update maker o (some p)
  | _, _ => maker

/-- Execute the next command of a process, and remember what it makes. -/
def traced (h : Hashes) (t : Traced) (a : Nat × Ending) : Option Traced :=
  (step h t.state a).map fun s ↦
    ⟨s, tmpdMaker a.1 t.tmpdBy (t.state.pc a.1) a.2,
      tmpOutputMaker a.1 t.tmpOutputBy (t.state.pc a.1) a.2⟩

/-- Nothing has been made. -/
def Traced.initial (output : Option Content) : Traced :=
  ⟨Download.initial output, fun _ ↦ none, fun _ ↦ none⟩

/-- The temporary directories. -/
def Traced.tmpd (t : Traced) : Ledger Nat Nat (Option Content) :=
  ⟨t.state.files.tmpd, t.tmpdBy, fun p ↦ (t.state.pc p).tmpd⟩

/-- The temporary outputs. -/
def Traced.tmpOutput (t : Traced) : Ledger Nat Nat Content :=
  ⟨t.state.files.tmpOutput, t.tmpOutputBy, fun p ↦ (t.state.pc p).tmpOutput⟩

/-- A command fails, and nothing removes what the process has in hand: `cd`, lines 80 and 91,
`mktemp`, line 102, the mode and `chmod`, lines 115-117, and every `rm`, lines 86, 96, 130, 133
and 140. -/
def abandons : Pc → Ending → Bool
  | .cdTmpd _, .fail | .cdBack _, .fail | .rmTmpd _, .fail | .mktempOutput _, .fail
  | .chmod _ _, .fail | .rmBoth _ _, .fail | .rmTmpdDone _ _, .fail | .rmTmpOutput _, .fail => true
  | _, _ => false

/-- The process removes what it has in hand, or keeps it. -/
def CleansUp (p : Nat) (t : Traced) (a : Nat × Ending) : Prop :=
  a.1 = p → abandons (t.state.pc p) a.2 = false

instance (p : Nat) (t : Traced) (a : Nat × Ending) : Decidable (CleansUp p t a) :=
  inferInstanceAs (Decidable (_ → _))

/-- No temporary that the process has made is on disk. -/
def NoTrash (p : Nat) (t : Traced) : Prop := t.tmpd.Clear p ∧ t.tmpOutput.Clear p

/-- Every run of the processes can be traced. -/
theorem execute_traced (h : Hashes) (as : List (Nat × Ending)) (t : Traced) :
    (execute (traced h) t as).map Traced.state = execute (step h) t.state as := by
  induction as generalizing t with
  | nil => rfl
  | cons a as ih =>
    cases hs : step h t.state a with
    | none => simp [execute, traced, hs]
    | some s =>
      have hstep : execute (step h) t.state (a :: as) = execute (step h) s as := by
        simp [execute, hs]
      rw [hstep, ← ih ⟨s, tmpdMaker a.1 t.tmpdBy (t.state.pc a.1) a.2,
        tmpOutputMaker a.1 t.tmpOutputBy (t.state.pc a.1) a.2⟩]
      simp [execute, traced, hs]

/-! ### One command -/

section Command

variable {h : Hashes} {p : Nat} {pc pc' : Pc} {fs fs' : Files} {ev : List Event} {e : Ending}
  {tmpdBy tmpOutputBy : Nat → Option Nat}

private theorem ofProgress_checkOutput (prog : Progress) :
    (ofProgress .checkOutput afterCheckOutput prog).tmpd = none ∧
      (ofProgress .checkOutput afterCheckOutput prog).tmpOutput = none := by
  cases prog with
  | running c => exact ⟨rfl, rfl⟩
  | exited code =>
    match code with
    | 0 | 1 | 2 | _ + 3 => exact ⟨rfl, rfl⟩

private theorem ofProgress_checkTmpf (d : Nat) (prog : Progress) :
    (ofProgress (.checkTmpf d) (afterCheckTmpf d) prog).tmpd = some d ∧
      (ofProgress (.checkTmpf d) (afterCheckTmpf d) prog).tmpOutput = none := by
  cases prog with
  | running c => exact ⟨rfl, rfl⟩
  | exited code => cases code <;> exact ⟨rfl, rfl⟩

/-- What a command of process `p` does to the temporaries. -/
theorem command_move (hd : ∀ d, pc.tmpd = some d → fs.tmpd d ≠ none)
    (hc : command h p fs pc e = some (pc', fs', ev)) :
    Ledger.Move p (e = .kill ∨ abandons pc e = true) ⟨fs.tmpd, tmpdBy, fun _ ↦ pc.tmpd⟩
        ⟨fs'.tmpd, tmpdMaker p tmpdBy pc e, fun _ ↦ pc'.tmpd⟩ ∧
      Ledger.Move p (e = .kill ∨ abandons pc e = true)
        ⟨fs.tmpOutput, tmpOutputBy, fun _ ↦ pc.tmpOutput⟩
        ⟨fs'.tmpOutput, tmpOutputMaker p tmpOutputBy pc e, fun _ ↦ pc'.tmpOutput⟩ := by
  cases pc <;> cases e <;> try (simp only [command, reduceCtorEq] at hc; done)
  all_goals try
    (simp only [command, Option.some.injEq, Prod.mk.injEq] at hc; obtain ⟨rfl, rfl, -⟩ := hc)
  all_goals try
    (simp only [command, Option.ite_none_right_eq_some, Option.some.injEq, Prod.mk.injEq] at hc
     obtain ⟨hguard, rfl, rfl, -⟩ := hc)
  all_goals try exact ⟨.same rfl rfl rfl, .same rfl rfl rfl⟩
  all_goals try exact ⟨.drop (.inl rfl) rfl rfl rfl, .drop (.inl rfl) rfl rfl rfl⟩
  all_goals try exact ⟨.drop (.inr rfl) rfl rfl rfl, .drop (.inr rfl) rfl rfl rfl⟩
  case testOutput.ok => split <;> exact ⟨.same rfl rfl rfl, .same rfl rfl rfl⟩
  case startOutput.ok =>
    obtain ⟨hd', ho'⟩ := ofProgress_checkOutput (startCheck h)
    exact ⟨.same hd' rfl rfl, .same ho' rfl rfl⟩
  case checkOutput.ok c =>
    obtain ⟨hd', ho'⟩ := ofProgress_checkOutput (stepCheck h c fs.output)
    exact ⟨.same hd' rfl rfl, .same ho' rfl rfl⟩
  case mktempDir.name d =>
    exact ⟨.make d none (Option.isNone_iff_eq_none.mp hguard) rfl rfl rfl rfl,
      .same rfl rfl rfl⟩
  case backend.write d file =>
    refine ⟨.keep rfl (fun k ↦ ?_) rfl, .same rfl rfl rfl⟩
    by_cases hk : k = d
    · simp [hk, Files.setTmpd, hd d rfl]
    · simp [Files.setTmpd, Function.update_of_ne hk]
  case startTmpf.ok d =>
    obtain ⟨hd', ho'⟩ := ofProgress_checkTmpf d (startCheck h)
    exact ⟨.same hd' rfl rfl, .same ho' rfl rfl⟩
  case checkTmpf.ok d c =>
    obtain ⟨hd', ho'⟩ := ofProgress_checkTmpf d (stepCheck h c ((fs.tmpd d).getD none))
    exact ⟨.same hd' rfl rfl, .same ho' rfl rfl⟩
  case rmTmpd.ok d => exact ⟨.remove d rfl rfl rfl rfl, .same rfl rfl rfl⟩
  case mktempOutput.name d o =>
    exact ⟨.same rfl rfl rfl,
      .make o [] (Option.isNone_iff_eq_none.mp hguard) rfl rfl rfl rfl⟩
  case openTmpf.ok d o =>
    simp only [command] at hc
    split at hc
    all_goals
      obtain ⟨rfl, rfl, -⟩ : _ ∧ _ ∧ _ := by simpa using hc
      exact ⟨.same rfl rfl rfl, .same rfl rfl rfl⟩
  case cat.append d o left n =>
    refine ⟨.same rfl rfl rfl, .keep rfl (fun k ↦ ?_) rfl⟩
    by_cases hk : k = o
    · simp [hk, Files.setTmpOutput]
    · simp [Files.setTmpOutput, Function.update_of_ne hk]
  case rmBoth.ok d o => exact ⟨.remove d rfl rfl rfl rfl, .same rfl rfl rfl⟩
  case rmBoth.fail d o => exact ⟨.drop (.inr rfl) rfl rfl rfl, .same rfl rfl rfl⟩
  case rmTmpdDone.ok d o => exact ⟨.remove d rfl rfl rfl rfl, .same rfl rfl rfl⟩
  case mv.ok o =>
    simp only [command] at hc
    split at hc
    · obtain ⟨rfl, rfl, -⟩ : _ ∧ _ ∧ _ := by simpa using hc
      exact ⟨.same rfl rfl rfl, .remove o rfl rfl rfl rfl⟩
    · obtain ⟨rfl, rfl, -⟩ : _ ∧ _ ∧ _ := by simpa using hc
      exact ⟨.same rfl rfl rfl, .same rfl rfl rfl⟩
  case rmTmpOutput.ok o => exact ⟨.same rfl rfl rfl, .remove o rfl rfl rfl rfl⟩

/-- A command that abandons something changes no file. -/
theorem command_abandons (ha : abandons pc e = true)
    (hc : command h p fs pc e = some (pc', fs', ev)) :
    fs' = fs ∧ tmpdMaker p tmpdBy pc e = tmpdBy ∧ tmpOutputMaker p tmpOutputBy pc e = tmpOutputBy ∧
      ((∃ d, pc.tmpd = some d ∧ pc'.tmpd = none) ∨
        ∃ o, pc.tmpOutput = some o ∧ pc'.tmpOutput = none) := by
  cases pc <;> cases e <;> try (simp only [abandons, reduceCtorEq] at ha; done)
  all_goals
    simp only [command, Option.some.injEq, Prod.mk.injEq] at hc
    obtain ⟨rfl, rfl, -⟩ := hc
  case rmTmpOutput.fail o => exact ⟨rfl, rfl, rfl, .inr ⟨o, rfl, rfl⟩⟩
  all_goals exact ⟨rfl, rfl, rfl, .inl ⟨_, rfl, rfl⟩⟩

/-- A process that is killed takes no step any more. -/
theorem command_kill (hc : command h p fs pc .kill = some (pc', fs', ev)) : pc' = .killed := by
  cases pc <;> simp only [command, Option.some.injEq, Prod.mk.injEq, reduceCtorEq] at hc
  all_goals exact hc.1.symm

end Command

/-! ### All processes -/

section Runs

variable {h : Hashes} {t t' : Traced} {a : Nat × Ending} {p : Nat}

/-- A step is a command of its process. -/
private theorem traced_eq_some (ht : traced h t a = some t') :
    ∃ pc' fs' ev, command h a.1 t.state.files (t.state.pc a.1) a.2 = some (pc', fs', ev) ∧
      t'.state.pc = Function.update t.state.pc a.1 pc' ∧ t'.state.files = fs' ∧
      t'.tmpdBy = tmpdMaker a.1 t.tmpdBy (t.state.pc a.1) a.2 ∧
      t'.tmpOutputBy = tmpOutputMaker a.1 t.tmpOutputBy (t.state.pc a.1) a.2 := by
  obtain ⟨s, hs, rfl⟩ := Option.map_eq_some_iff.mp ht
  obtain ⟨pc', fs', ev, hc, rfl⟩ := step_eq_some hs
  exact ⟨pc', fs', ev, hc, rfl, rfl, rfl, rfl⟩

/-- The other processes stay where they are. -/
private theorem traced_pc (ht : traced h t a = some t') {q : Nat} (hq : q ≠ a.1) :
    t'.state.pc q = t.state.pc q := by
  obtain ⟨pc', fs', ev, -, hpc, -⟩ := traced_eq_some ht
  rw [hpc, Function.update_of_ne hq]

/-- What a step does to the temporaries. -/
theorem traced_move (hs : t.tmpd.Sound) (ht : traced h t a = some t') :
    t.tmpd.Move a.1 (a.2 = .kill ∨ abandons (t.state.pc a.1) a.2 = true) t'.tmpd ∧
      t.tmpOutput.Move a.1 (a.2 = .kill ∨ abandons (t.state.pc a.1) a.2 = true) t'.tmpOutput := by
  obtain ⟨pc', fs', ev, hc, hpc, hfs, hd, ho⟩ := traced_eq_some ht
  have hself : t'.state.pc a.1 = pc' := by rw [hpc, Function.update_self]
  obtain ⟨hmd, hmo⟩ := command_move (fun d hd ↦ (hs a.1 d hd).1) hc
  constructor
  · apply Ledger.Move.of_hand
    simpa only [Traced.tmpd, hself, hfs, hd] using hmd
  · apply Ledger.Move.of_hand
    simpa only [Traced.tmpOutput, hself, hfs, ho] using hmo

/-- What the processes have in hand is on disk. -/
def Sound (t : Traced) : Prop := t.tmpd.Sound ∧ t.tmpOutput.Sound

/-- The process knows of all its temporaries, unless it has been killed. -/
def Tidy (p : Nat) (t : Traced) : Prop :=
  t.state.pc p = .killed ∨ (t.tmpd.Tidy p ∧ t.tmpOutput.Tidy p)

/-- The process has let go of a temporary. -/
def Litters (p : Nat) (t : Traced) : Prop := t.tmpd.Litter p ∨ t.tmpOutput.Litter p

private theorem Sound.step (hs : Sound t) (ht : traced h t a = some t') : Sound t' := by
  obtain ⟨hmd, hmo⟩ := traced_move hs.1 ht
  exact ⟨hs.1.move hmd fun q hq ↦ congrArg Pc.tmpd (traced_pc ht hq),
    hs.2.move hmo fun q hq ↦ congrArg Pc.tmpOutput (traced_pc ht hq)⟩

private theorem Tidy.step (hs : Sound t) (hti : Tidy p t) (hclean : CleansUp p t a)
    (ht : traced h t a = some t') : Tidy p t' := by
  obtain ⟨hmd, hmo⟩ := traced_move hs.1 ht
  by_cases hp : p = a.1
  · subst hp
    obtain ⟨pc', fs', ev, hc, hpc, -⟩ := traced_eq_some ht
    rcases hti with hkilled | ⟨htd, hto⟩
    · rw [hkilled] at hc
      cases hc
    · by_cases hkill : a.2 = .kill
      · rw [hkill] at hc
        exact .inl (by rw [hpc, Function.update_self, command_kill hc])
      · have hno : a.2 = .kill ∨ abandons (t.state.pc a.1) a.2 = true → False := by
          rintro (hk | ha)
          · exact hkill hk
          · rw [hclean rfl] at ha
            cases ha
        exact .inr ⟨htd.move (hmd.mono hno), hto.move (hmo.mono hno)⟩
  · rcases hti with hkilled | ⟨htd, hto⟩
    · exact .inl ((traced_pc ht hp).trans hkilled)
    · exact .inr ⟨htd.move_of_ne hmd hp fun q hq ↦ congrArg Pc.tmpd (traced_pc ht hq),
        hto.move_of_ne hmo hp fun q hq ↦ congrArg Pc.tmpOutput (traced_pc ht hq)⟩

private theorem Sound.litters (hs : Sound t) (hclean : ¬ CleansUp p t a)
    (ht : traced h t a = some t') : Litters p t' := by
  obtain ⟨rfl, ha⟩ : a.1 = p ∧ abandons (t.state.pc p) a.2 = true := by
    simpa [CleansUp] using hclean
  obtain ⟨pc', fs', ev, hc, hpc, hfs, hd, ho⟩ := traced_eq_some ht
  have hself : t'.state.pc a.1 = pc' := by rw [hpc, Function.update_self]
  obtain ⟨rfl, hdby, hoby, hdrop⟩ := command_abandons ha hc
  rcases hdrop with ⟨d, hhand, hnone⟩ | ⟨o, hhand, hnone⟩
  · refine .inl (hs.1.litter hhand ?_ (congrArg Files.tmpd hfs) (hd.trans hdby))
    rw [← hself] at hnone
    exact hnone
  · refine .inr (hs.2.litter hhand ?_ (congrArg Files.tmpOutput hfs) (ho.trans hoby))
    rw [← hself] at hnone
    exact hnone

private theorem Litters.step (hs : Sound t) (hl : Litters p t) (ht : traced h t a = some t') :
    Litters p t' := by
  obtain ⟨hmd, hmo⟩ := traced_move hs.1 ht
  rcases hl with hl | hl
  · exact .inl (hl.move hs.1 hmd fun q hq ↦ congrArg Pc.tmpd (traced_pc ht hq))
  · exact .inr (hl.move hs.2 hmo fun q hq ↦ congrArg Pc.tmpOutput (traced_pc ht hq))

/-- In every run of any number of processes: a process that has exited, with whatever code, has
left no temporary exactly when none of its commands was one that abandons what it has in hand. -/
theorem noTrash_iff {output : Option Content} {as : List (Nat × Ending)} {code : Nat}
    (hrun : execute (traced h) (Traced.initial output) as = some t)
    (hexit : t.state.pc p = .exited code) :
    NoTrash p t ↔ Meets (traced h) (CleansUp p) (Traced.initial output) as := by
  have hstart : Sound (Traced.initial output) ∧ Tidy p (Traced.initial output) :=
    ⟨⟨nofun, nofun⟩, .inr ⟨fun _ hstock _ ↦ absurd rfl hstock, fun _ hstock _ ↦ absurd rfl hstock⟩⟩
  rcases execute_meets_or (fun t ↦ Sound t ∧ Tidy p t) (fun t ↦ Sound t ∧ Litters p t)
    (fun s a s' hs hclean ht ↦ ⟨hs.1.step ht, hs.2.step hs.1 hclean ht⟩)
    (fun s a s' hs hclean ht ↦ ⟨hs.1.step ht, hs.1.litters hclean ht⟩)
    (fun s a s' hs ht ↦ ⟨hs.1.step ht, hs.2.step hs.1 ht⟩) hstart hrun with
    ⟨hmeets, -, htidy⟩ | ⟨hno, -, hlitter⟩
  · refine iff_of_true ?_ hmeets
    rcases htidy with hkilled | ⟨htd, hto⟩
    · rw [hexit] at hkilled
      cases hkilled
    · exact ⟨htd.clear (congrArg Pc.tmpd hexit), hto.clear (congrArg Pc.tmpOutput hexit)⟩
  · refine iff_of_false (fun hclear ↦ ?_) hno
    rcases hlitter with hl | hl
    · exact hl.not_clear hclear.1
    · exact hl.not_clear hclear.2

end Runs

/-- The download directory cannot be written to. -/
def readOnly : List (Nat × Ending) :=
  [.ok, .name 0, .ok, .write (some curl), .ok, .ok, .ok, .ok, .ok, .fail].map (0, ·)

/-- The process exits with 1, and its temporary directory stays. -/
theorem readOnly_trash : ∃ t,
    execute (traced curlHashes) (Traced.initial none) readOnly = some t ∧
      t.state.pc 0 = .exited 1 ∧ ¬ NoTrash 0 t :=
  have ⟨t, hrun, ht⟩ := (Option.any_eq_true (fun t : Traced ↦ t.state.pc 0 = .exited 1 ∧
    t.state.files.tmpd 0 ≠ none ∧ t.tmpdBy 0 = some 0)
      (execute (traced curlHashes) (Traced.initial none) readOnly)).mp (by decide +kernel)
  have ⟨hexit, hstock, hmaker⟩ := of_decide_eq_true ht
  ⟨t, hrun, hexit, fun hclear ↦ hclear.1 0 hstock hmaker⟩

/-- A backend that fails is cleaned up after. -/
theorem noTrash_iff_backend : ∃ t,
    execute (traced curlHashes) (Traced.initial none)
        ([.ok, .name 0, .ok, .write none, .fail, .ok].map (0, ·)) = some t ∧
      t.state.pc 0 = .exited 1 ∧ NoTrash 0 t :=
  have ⟨t, hrun, ht⟩ := (Option.any_eq_true (fun t : Traced ↦ t.state.pc 0 = .exited 1)
      (execute (traced curlHashes) (Traced.initial none)
        ([.ok, .name 0, .ok, .write none, .fail, .ok].map (0, ·)))).mp (by decide +kernel)
  ⟨t, hrun, of_decide_eq_true ht, (noTrash_iff hrun (of_decide_eq_true ht)).mpr (by decide +kernel)⟩

end MotionPie.Support.Download
