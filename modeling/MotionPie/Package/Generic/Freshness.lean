import MotionPie.Base.Loop
import MotionPie.Base.Run
import MotionPie.Make.Due
import MotionPie.Package.Generic.Stamps

/-!
# Nothing is installed from a stale build

Along normal prerequisites no history of runs can leave a step older than one that it needs.
The rsync of an overridden source is an order-only prerequisite, so there the order depends
on what is deleted: the build stamp must not outlive the rsync stamp.
-/

namespace MotionPie.Package.Generic

open Base Make

/-- The step `t` was last executed after the step `p`. -/
def Later (s : Disk Stamp) (t p : Stamp) : Prop :=
  ∃ e f, s.lastExec p = some e ∧ s.lastExec t = some f ∧ e < f

private theorem Later.trans {s : Disk Stamp} {t u p : Stamp} (h : Later s t u) (h' : Later s u p) :
    Later s t p := by
  obtain ⟨e, f, he, hf, hlt⟩ := h
  obtain ⟨d, e', hd, he', hlt'⟩ := h'
  obtain rfl := Option.some.inj (he.symm.trans he')
  exact ⟨d, f, hd, hf, by omega⟩

/-- The build is newer than the configuration and the unpacked sources, and every enabled
install step is newer than the build. -/
structure Fresh (pkg : Pkg) (s : Disk Stamp) : Prop where
  configured : Later s .built .configured
  sources : pkg.overridden = false → Later s .built .extracted ∧ Later s .built .patched
  installs : ∀ t ∈ pkg.installs, Later s t .built

/-- The run deletes no rsync stamp without the build stamp. -/
def Together (pkg : Pkg) (o : Nat → Outcome Stamp) (s : Disk Stamp) (c : Target) : Prop :=
  (left (c.clean pkg o s)).mtime .built ≠ none → s.mtime .rsynced ≠ none →
    (left (c.clean pkg o s)).mtime .rsynced ≠ none

instance (pkg : Pkg) (o : Nat → Outcome Stamp) (s : Disk Stamp) (c : Target) :
    Decidable (Together pkg o s c) :=
  inferInstanceAs (Decidable (_ → _ → _))

section Clean

variable {pkg : Pkg} {o : Nat → Outcome Stamp} {s s' : Disk Stamp} {c : Target}

private theorem rmStamp_shrinks {t : Stamp} : Shrinks s (left (rmStamp o s t)) := by
  unfold rmStamp
  split
  · exact shrinks_remove s _
  · exact shrinks_remove s _
  · exact shrinks_tick s

private theorem rmStamps_shrinks {ts : List Stamp} : Shrinks s (left (ts.foldlM (rmStamp o) s)) := by
  induction ts generalizing s with
  | nil => exact .refl s
  | cons t ts ih =>
    have hfirst := rmStamp_shrinks (o := o) (s := s) (t := t)
    rw [List.foldlM_cons]
    cases hrm : rmStamp o s t with
    | error s' =>
      rw [hrm] at hfirst
      exact hfirst
    | ok s₁ =>
      rw [hrm] at hfirst
      exact hfirst.trans ih

private theorem rmDir_shrinks : Shrinks s (left (rmDir o s)) := by
  unfold rmDir
  split
  · exact shrinks_remove s _
  · exact shrinks_remove s _
  · exact shrinks_tick s

/-- Cleaning only deletes stamps, whether it is cut short or not. -/
theorem clean_shrinks : Shrinks s (left (c.clean pkg o s)) := by
  cases c with
  | package => exact .refl s
  | rebuild | reinstall | reconfigure => exact rmStamps_shrinks
  | dirclean => exact rmDir_shrinks

/-- After cleaning that succeeds, the stamps are gone. -/
private theorem rmStamps_mtime {ts : List Stamp} (hok : ts.foldlM (rmStamp o) s = .ok s')
    {t : Stamp} (ht : t ∈ ts) : s'.mtime t = none := by
  induction ts generalizing s with
  | nil => cases ht
  | cons u ts ih =>
    rw [List.foldlM_cons] at hok
    obtain ⟨s₁, hfirst, hrest⟩ := bind_ok.mp hok
    rcases List.mem_cons.mp ht with rfl | ht
    · have hgone : s₁.mtime t = none := by
        unfold rmStamp at hfirst
        split at hfirst <;> cases hfirst
        exact if_pos (by simp)
      have hshrink : Shrinks s₁ (left (ts.foldlM (rmStamp o) s₁)) := rmStamps_shrinks
      rw [hrest] at hshrink
      exact (hshrink.mtime t).elim (·.trans hgone) id
    · exact ih hrest ht

/-- Only `-reinstall`, and a run that is cut short while it cleans, can delete the rsync
stamp without the build stamp. -/
theorem together_of_clean (hc : c ≠ .reinstall) (hok : c.clean pkg o s = .ok s') :
    Together pkg o s c := by
  intro hbuilt hsynced
  rw [hok] at hbuilt ⊢
  cases c with
  | package =>
    obtain rfl := Except.ok.inj hok
    exact hsynced
  | rebuild => exact absurd (rmStamps_mtime hok (by simp [Pkg.cleanForRebuild])) hbuilt
  | reinstall => exact absurd rfl hc
  | reconfigure =>
    exact absurd (rmStamps_mtime hok (by simp [Pkg.cleanForReconfigure, Pkg.cleanForRebuild])) hbuilt
  | dirclean =>
    have hdir : rmDir o s = .ok s' := hok
    unfold rmDir at hdir
    split at hdir <;> cases hdir
    exact absurd rfl hbuilt

end Clean

/-! ### One run -/

section Run

variable {pkg : Pkg} {o : Nat → Outcome Stamp} {s s' : Disk Stamp} {c : Target}

/-- A run that succeeds goes through its goals. -/
theorem run_ok (hok : c.run pkg o s = .ok s') : ∃ s₂ : Make.Run Stamp,
    Relation.ReflTransGen (Move pkg.rules) (Run.start (left (c.clean pkg o s))) s₂ ∧
      s' = s₂.toDisk ∧ ∀ t ∈ c.goals pkg, t ∈ s₂.considered := by
  unfold Target.run at hok
  split at hok
  · next s₁ hclean =>
    have hends : Ends pkg.rules (Run.start s₁) _ (make pkg.rules o (c.goals pkg) s₁) := make_ends s₁
    split at hok
    · next s₂ hmake =>
      rw [hmake] at hends
      rw [hclean]
      exact ⟨s₂, hends.1, (Except.ok.inj hok).symm, hends.2⟩
    · cases hok
  · cases hok

/-- A run that fails stops while it cleans, or some moves after that. -/
theorem run_error (herr : c.run pkg o s = .error s') : s' = left (c.clean pkg o s) ∨
    ∃ s₂ : Make.Run Stamp,
      Relation.ReflTransGen (Move pkg.rules) (Run.start (left (c.clean pkg o s))) s₂ ∧
        Halt pkg.rules s₂ s' := by
  unfold Target.run at herr
  split at herr
  · next s₁ hclean =>
    have hends : Ends pkg.rules (Run.start s₁) _ (make pkg.rules o (c.goals pkg) s₁) := make_ends s₁
    rw [hclean]
    split at herr
    · cases herr
    · next s₂ hmake =>
      rw [hmake] at hends
      obtain rfl := Except.error.inj herr
      exact .inr hends
  · next s₁ hclean =>
    rw [hclean]
    exact .inl (Except.error.inj herr).symm

/-- The invariant rule for one run: what cleaning, moves and failures keep. -/
theorem run_inv (P : Disk Stamp → Prop) (hclean : P (left (c.clean pkg o s)))
    (hs : Sound pkg.rules s)
    (hmove : ∀ r r', InRun pkg.rules r → P r.toDisk → Move pkg.rules r r' → P r'.toDisk)
    (hhalt : ∀ r s', InRun pkg.rules r → P r.toDisk → Halt pkg.rules r s' → P s') :
    P (left (c.run pkg o s)) := by
  have hstart : InRun pkg.rules (Run.start (left (c.clean pkg o s))) :=
    inRun_start (hs.shrinks clean_shrinks)
  have hmoves : ∀ r, Relation.ReflTransGen (Move pkg.rules) (Run.start (left (c.clean pkg o s))) r →
      InRun pkg.rules r ∧ P r.toDisk := by
    intro r hr
    induction hr with
    | refl => exact ⟨hstart, hclean⟩
    | tail _ hm ih => exact ⟨ih.1.move hm, hmove _ _ ih.1 ih.2 hm⟩
  cases hrun : c.run pkg o s with
  | ok s' =>
    obtain ⟨s₂, hm, rfl, -⟩ := run_ok hrun
    exact (hmoves s₂ hm).2
  | error s' =>
    rcases run_error hrun with rfl | ⟨s₂, hm, hh⟩
    · exact hclean
    · exact hhalt s₂ s' (hmoves s₂ hm).1 (hmoves s₂ hm).2 hh

/-- Every run leaves the stamps sound. -/
theorem run_sound (hs : Sound pkg.rules s) : Sound pkg.rules (left (c.run pkg o s)) :=
  run_inv (Sound pkg.rules) (hs.shrinks clean_shrinks) hs (fun _ _ hr _ hm ↦ (hr.move hm).sound)
    fun _ _ hr _ hh ↦ hr.halt hh

end Run

/-! ### The rsync of an overridden source -/

/-- The build stamp is newer than the rsync stamp, which the last rsync has touched. -/
def Synced (s : Disk Stamp) : Prop :=
  ∀ b, s.mtime .built = some b →
    ∃ r, s.mtime .rsynced = some r ∧ s.lastExec .rsynced = some r ∧ r < b

section Synced

variable {pkg : Pkg} {o : Nat → Outcome Stamp} {c : Target}

/-- No recipe breaks the order: the build comes after the rsync in a run, and the rsync is
only done when its stamp is missing, so that the build stamp is missing, too. -/
theorem Synced.exec {s : Make.Run Stamp} {t : Stamp} (hov : pkg.overridden = true)
    (hs : Synced s.toDisk) (hr : InRun pkg.rules s) (hready : Ready pkg.rules s t)
    (hmust : s.mustRemake pkg.rules t = true) (touched : Bool) :
    Synced (s.toDisk.exec t touched) := by
  intro b hb
  by_cases hbuilt : t = .built
  · subst hbuilt
    have hsynced : .rsynced ∈ s.considered := by
      have hconf : .configured ∈ s.considered :=
        hready.prereqs _ (by simp [Rules.prereqs, Pkg.rules, Pkg.normal])
      apply hr.closed .configured hconf
      simp [Rules.prereqs, Pkg.rules, Pkg.orderOnly, hov]
    obtain ⟨r, he, hm⟩ := hr.sound.exec_eq (hr.upToDate _ hsynced)
    refine ⟨r, (s.exec_mtime_of_ne touched (by decide)).trans hm,
      (s.exec_lastExec_of_ne touched (by decide)).trans he, ?_⟩
    cases touched with
    | true =>
      obtain rfl := Option.some.inj ((s.exec_mtime_self _).symm.trans hb)
      exact hr.sound.exec_lt _ r he
    | false =>
      obtain ⟨r', hm', -, hlt⟩ := hs b hb
      obtain rfl := Option.some.inj (hm.symm.trans hm')
      exact hlt
  · rw [s.exec_mtime_of_ne touched (Ne.symm hbuilt)] at hb
    obtain ⟨r, hm, he, hlt⟩ := hs b hb
    by_cases hrsync : t = .rsynced
    · subst hrsync
      simp [Run.mustRemake, hm, Pkg.rules, Pkg.normal] at hmust
    · exact ⟨r, (s.exec_mtime_of_ne touched (Ne.symm hrsync)).trans hm,
        (s.exec_lastExec_of_ne touched (Ne.symm hrsync)).trans he, hlt⟩

/-- A run that deletes the stamps together keeps the order. -/
theorem Synced.run {s : Disk Stamp} (hov : pkg.overridden = true) (hs : Synced s)
    (hsound : Sound pkg.rules s) (htog : Together pkg o s c) : Synced (left (c.run pkg o s)) := by
  refine run_inv Synced (fun b hb ↦ ?_) hsound (fun r r' hr hrs hm ↦ ?_) fun r s' hr hrs hh ↦ ?_
  · have hshrink : Shrinks s (left (c.clean pkg o s)) := clean_shrinks
    have hold : s.mtime .built = some b := by
      rcases hshrink.mtime .built with hsame | hnone
      · exact hsame ▸ hb
      · rw [hnone] at hb
        cases hb
    obtain ⟨r, hm, he, hlt⟩ := hs b hold
    refine ⟨r, ?_, hshrink.lastExec ▸ he, hlt⟩
    rcases hshrink.mtime .rsynced with hsame | hnone
    · exact hsame.trans hm
    · exact absurd hnone (htog (by simp [hb]) (by simp [hm]))
  · cases hm with
    | keep _ _ => exact hrs
    | remake hready hmust => exact hrs.exec hov hr hready hmust true
  · cases hh with
    | fail touched hready hmust => exact hrs.exec hov hr hready hmust touched
    | stop => exact hrs

end Synced

/-! ### Histories of runs -/

section History

variable {pkg : Pkg} {o : Nat → Outcome Stamp} {cs : List Target} {c : Target} {s s' : Disk Stamp}

/-- Every install step needs the build. -/
private theorem built_mem_normal {t : Stamp} (ht : t ∈ pkg.installs) :
    .built ∈ pkg.rules.normal t := by
  unfold Pkg.installs at ht
  split at ht
  · obtain rfl := List.mem_singleton.mp ht
    exact List.mem_singleton_self _
  · rcases List.mem_append.mp ht with ht | ht
    · rcases List.mem_append.mp ht with ht | ht
      · split at ht <;> simp_all [Pkg.rules, Pkg.normal]
      · split at ht <;> simp_all [Pkg.rules, Pkg.normal]
    · split at ht <;> simp_all [Pkg.rules, Pkg.normal]

/-- A package that installs nothing does nothing. -/
private theorem run_lastExec (hnone : pkg.installs = []) :
    (left (c.run pkg o s)).lastExec = s.lastExec := by
  have hgoals : c.goals pkg = [] := by cases c <;> first | exact hnone | rfl
  have hshrink : Shrinks s (left (c.clean pkg o s)) := clean_shrinks
  unfold Target.run
  rw [hgoals]
  cases hclean : c.clean pkg o s with
  | ok s₁ =>
    rw [hclean] at hshrink
    exact hshrink.lastExec
  | error s₁ =>
    rw [hclean] at hshrink
    exact hshrink.lastExec

private theorem history_sound (hrun : execute (step pkg o) Disk.empty cs = some s) :
    Sound pkg.rules s := by
  refine execute_inv (Sound pkg.rules) (fun s c s' hs hstep ↦ ?_) sound_empty hrun
  obtain rfl := Option.some.inj hstep
  exact run_sound hs

private theorem history_lastExec (hnone : pkg.installs = [])
    (hrun : execute (step pkg o) Disk.empty cs = some s) : ∀ t, s.lastExec t = none := by
  refine execute_inv (fun s ↦ ∀ t, s.lastExec t = none) (fun s c s' hs hstep ↦ ?_) (fun _ ↦ rfl) hrun
  obtain rfl := Option.some.inj hstep
  exact fun t ↦ (congrFun (run_lastExec hnone) t).trans (hs t)

private theorem history_synced (hov : pkg.overridden = true)
    (hmeets : Meets (step pkg o) (Together pkg o) Disk.empty cs)
    (hrun : execute (step pkg o) Disk.empty cs = some s) : Synced s := by
  refine (execute_inv_of_meets (fun s ↦ Sound pkg.rules s ∧ Synced s) (fun s c s' hs htog hstep ↦ ?_)
    ⟨sound_empty, nofun⟩ hmeets hrun).2
  obtain rfl := Option.some.inj hstep
  exact ⟨run_sound hs.1, hs.2.run hov hs.1 htog⟩

/-- After any history of runs, a run that succeeds in making the package leaves it fresh,
unless the package installs nothing, and then no step of it has ever been executed. When no
run deletes the rsync stamp without the build stamp, the build is newer than the rsync of an
overridden source, too. -/
theorem run_fresh (hrun : execute (step pkg o) Disk.empty cs = some s) (hc : c ≠ .dirclean)
    (hok : c.run pkg o s = .ok s') :
    (pkg.installs = [] ∧ ∀ t, s'.lastExec t = none) ∨ Fresh pkg s' ∧
      (pkg.overridden = true → Meets (step pkg o) (Together pkg o) Disk.empty (cs ++ [c]) →
        Later s' .built .rsynced) := by
  have hall : execute (step pkg o) Disk.empty (cs ++ [c]) = some s' :=
    execute_append.mpr ⟨s, hrun, by simp [execute, step, hok, left]⟩
  by_cases hnone : pkg.installs = []
  · exact .inl ⟨hnone, history_lastExec hnone hall⟩
  obtain ⟨s₂, hmoves, rfl, hgoals⟩ := run_ok hok
  have hin := (inRun_start ((history_sound hrun).shrinks clean_shrinks)).moves hmoves
  have hinstalls : ∀ t ∈ pkg.installs, t ∈ s₂.considered := fun t ht ↦
    hgoals t (by cases c <;> first | exact ht | exact absurd rfl hc)
  have hclosed : ∀ {t p}, t ∈ s₂.considered → p ∈ pkg.rules.normal t → p ∈ s₂.considered :=
    fun ht hp ↦ hin.closed _ ht _ (List.mem_append_left _ hp)
  obtain ⟨t, ht⟩ := List.exists_mem_of_ne_nil _ hnone
  have hbuilt : .built ∈ s₂.considered := hclosed (hinstalls t ht) (built_mem_normal ht)
  have hconf : .configured ∈ s₂.considered := hclosed hbuilt (List.mem_singleton_self _)
  have hlater : Later s₂.toDisk .built .configured :=
    hin.exec_lt hbuilt (List.mem_singleton_self _)
  refine .inr ⟨⟨hlater, fun hov ↦ ?_, fun t ht ↦ ?_⟩, fun hov hmeets ↦ ?_⟩
  · have hp : .patched ∈ pkg.rules.normal .configured := by simp [Pkg.rules, Pkg.normal, hov]
    have hx : .extracted ∈ pkg.rules.normal .patched := by simp [Pkg.rules, Pkg.normal, hov]
    have hpatched := hlater.trans (hin.exec_lt hconf hp)
    exact ⟨hpatched.trans (hin.exec_lt (hclosed hconf hp) hx), hpatched⟩
  · exact hin.exec_lt (hinstalls t ht) (built_mem_normal ht)
  · obtain ⟨f, hf, hm⟩ := hin.sound.exec_eq (hin.upToDate _ hbuilt)
    obtain ⟨r, -, hr, hlt⟩ := history_synced hov hmeets hall f hm
    exact ⟨r, f, hr, hf, hlt⟩

end History

/-- A target package with an overridden source. -/
def overriddenPkg : Pkg := ⟨false, true, false, false, true⟩

/-- A `-reconfigure` after a `-rebuild`. -/
theorem run_fresh_rebuild : ∃ s s',
    execute (step overriddenPkg fun _ ↦ .ok) Disk.empty [.package, .rebuild] = some s ∧
      Target.run overriddenPkg (fun _ ↦ .ok) .reconfigure s = .ok s' ∧
      Fresh overriddenPkg s' ∧ Later s' .built .rsynced := by
  obtain ⟨s, hrun, hs⟩ := (Option.any_eq_true (fun s : Disk Stamp ↦
    (Target.run overriddenPkg (fun _ ↦ .ok) .reconfigure s).isOk)
    (execute (step overriddenPkg fun _ ↦ .ok) Disk.empty [.package, .rebuild])).mp (by decide +kernel)
  obtain ⟨s', hok⟩ := exists_of_isOk hs
  rcases run_fresh hrun (by decide) hok with ⟨hnone, -⟩ | ⟨hfresh, hsynced⟩
  · cases hnone
  · exact ⟨s, s', hrun, hok, hfresh, hsynced rfl (by decide +kernel)⟩

private theorem exists_stale {o : Nat → Outcome Stamp} {cs : List Target} {c : Target} {e f : Nat}
    (hlt : e < f) (h : (execute (step overriddenPkg o) Disk.empty cs).any (fun s ↦
      (c.run overriddenPkg o s).toOption.any fun s' ↦
        s'.lastExec .built = some e ∧ s'.lastExec .rsynced = some f) = true) :
    ∃ s s', execute (step overriddenPkg o) Disk.empty cs = some s ∧
      c.run overriddenPkg o s = .ok s' ∧ Later s' .rsynced .built := by
  obtain ⟨s, hrun, hs⟩ := (Option.any_eq_true _ _).mp h
  obtain ⟨s', hok, hexec⟩ := exists_of_any hs
  obtain ⟨hbuilt, hsynced⟩ := of_decide_eq_true hexec
  exact ⟨s, s', hrun, hok, e, f, hbuilt, hsynced, hlt⟩

/-- The second command of the second run fails. -/
def cutShort (n : Nat) : Outcome Stamp := if n = 5 then .stop else .ok

/-- After `-reinstall`, and after a `-rebuild` that is cut short, the overridden package is
reported as installed, while its sources are newer than its build. -/
theorem run_stale :
    (∃ s s', execute (step overriddenPkg fun _ ↦ .ok) Disk.empty [.package] = some s ∧
        Target.run overriddenPkg (fun _ ↦ .ok) .reinstall s = .ok s' ∧
        Later s' .rsynced .built) ∧
      ∃ s s', execute (step overriddenPkg cutShort) Disk.empty [.package, .rebuild] = some s ∧
        Target.run overriddenPkg cutShort .package s = .ok s' ∧ Later s' .rsynced .built :=
  ⟨exists_stale (e := 2) (f := 9) (by decide) (by decide +kernel),
    exists_stale (e := 2) (f := 6) (by decide) (by decide +kernel)⟩

end MotionPie.Package.Generic
