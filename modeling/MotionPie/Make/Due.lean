import Mathlib.Logic.Relation
import MotionPie.Make.Engine

/-!
# Targets that are due

A target is due when it is missing, or older than a normal prerequisite, or has one that is
due. The invariant that holds between runs says that every target whose last execution did
not touch it is due; touching a new target and deleting stamps only make more targets due.
So once a run has been through a target, the recipe of each normal prerequisite was last
executed before its own.
-/

namespace MotionPie.Make

variable {τ : Type}

/-- The target has to be remade, or will have to be once its prerequisites are. -/
inductive Due (R : Rules τ) (mtime : τ → Option Nat) : τ → Prop
  | missing {t} : mtime t = none → Due R mtime t
  | newer {t p m n} : p ∈ R.normal t → mtime t = some m → mtime p = some n → m < n →
      Due R mtime t
  | prereq {t p} : p ∈ R.normal t → Due R mtime p → Due R mtime t

section Due

variable {R : Rules τ} {mtime mtime' : τ → Option Nat} {t : τ}

/-- Deleting stamps leaves the due targets due. -/
theorem Due.remove (h : Due R mtime t) (hm : ∀ u, mtime' u = mtime u ∨ mtime' u = none) :
    Due R mtime' t := by
  induction h with
  | @missing t hnone =>
    exact .missing ((hm t).elim (·.trans hnone) id)
  | @newer t p m n hp ht hpn hlt =>
    rcases hm t with htm | hgone
    · rcases hm p with hpm | hgone
      · exact .newer hp (htm.trans ht) (hpm.trans hpn) hlt
      · exact .prereq hp (.missing hgone)
    · exact .missing hgone
  | prereq hp _ ih => exact .prereq hp ih

/-- Touching another target leaves the due targets due. -/
theorem Due.touch [DecidableEq τ] {u : τ} {k : Nat} (h : Due R mtime t) (htu : t ≠ u)
    (hold : ∀ t m, mtime t = some m → m < k) : Due R (Function.update mtime u (some k)) t := by
  induction h with
  | missing hnone => exact .missing ((Function.update_of_ne htu _ _).trans hnone)
  | @newer t p m n hp ht hpn hlt =>
    have ht' := (Function.update_of_ne htu (some k) mtime).trans ht
    by_cases hpu : p = u
    · subst hpu
      exact .newer hp ht' (Function.update_self _ _ _) (hold t m ht)
    · exact .newer hp ht' ((Function.update_of_ne hpu _ _).trans hpn) hlt
  | @prereq t p hp hdue ih =>
    by_cases hpu : p = u
    · subst hpu
      cases ht : mtime t with
      | none => exact .missing ((Function.update_of_ne htu _ _).trans ht)
      | some m =>
        exact .newer hp ((Function.update_of_ne htu _ _).trans ht) (Function.update_self _ _ _)
          (hold t m ht)
    · exact .prereq hp (ih hpu)

/-- Whether a target is due depends only on what it is made from. -/
theorem Due.congr {C : τ → Prop} (h : Due R mtime t) (ht : C t)
    (hclosed : ∀ t, C t → ∀ p ∈ R.normal t, C p) (hm : ∀ t, C t → mtime' t = mtime t) :
    Due R mtime' t := by
  induction h with
  | @missing t hnone => exact .missing ((hm t ht).trans hnone)
  | @newer t p m n hp htm hpn hlt =>
    exact .newer hp ((hm t ht).trans htm) ((hm p (hclosed t ht p hp)).trans hpn) hlt
  | @prereq t p hp _ ih => exact .prereq hp (ih (hclosed t ht p hp))

end Due

/-! ### Between runs -/

/-- Time has passed, and some stamps have been deleted. -/
structure Shrinks (s s' : Disk τ) : Prop where
  clock : s.clock ≤ s'.clock
  lastExec : s'.lastExec = s.lastExec
  mtime : ∀ t, s'.mtime t = s.mtime t ∨ s'.mtime t = none

section Shrinks

variable {s s₁ s' : Disk τ}

theorem Shrinks.refl (s : Disk τ) : Shrinks s s := ⟨Nat.le_refl _, rfl, fun _ ↦ .inl rfl⟩

theorem Shrinks.trans (h : Shrinks s s₁) (h' : Shrinks s₁ s') : Shrinks s s' := by
  refine ⟨Nat.le_trans h.clock h'.clock, h'.lastExec.trans h.lastExec, fun t ↦ ?_⟩
  rcases h'.mtime t with hsame | hnone
  · rw [hsame]
    exact h.mtime t
  · exact .inr hnone

theorem shrinks_tick (s : Disk τ) : Shrinks s s.tick :=
  ⟨Nat.le_succ _, rfl, fun _ ↦ .inl rfl⟩

theorem shrinks_remove (s : Disk τ) (gone : τ → Bool) : Shrinks s (s.remove gone) := by
  refine ⟨Nat.le_succ _, rfl, fun t ↦ ?_⟩
  cases ht : gone t with
  | true => exact .inr (if_pos ht)
  | false => exact .inl (if_neg (by simp [ht]))

end Shrinks

/-- What holds of the stamps between runs. -/
structure Sound (R : Rules τ) (s : Disk τ) : Prop where
  mtime_lt : ∀ t m, s.mtime t = some m → m < s.clock
  exec_lt : ∀ t e, s.lastExec t = some e → e < s.clock
  exec_ne_none : ∀ t, s.mtime t ≠ none → s.lastExec t ≠ none
  exec_inj : ∀ t u e, s.lastExec t = some e → s.lastExec u = some e → t = u
  stale : ∀ t e, s.lastExec t = some e → s.mtime t ≠ some e → Due R s.mtime t

section Sound

variable {R : Rules τ} {s : Disk τ} {t : τ}

/-- Nothing has been made yet. -/
theorem sound_empty : Sound R (Disk.empty : Disk τ) :=
  ⟨nofun, nofun, fun _ h ↦ absurd rfl h, nofun, nofun⟩

/-- Time may pass, and any stamps may be deleted. -/
theorem Sound.shrinks {s' : Disk τ} (h : Sound R s) (hs : Shrinks s s') : Sound R s' := by
  have hkeep : ∀ t m, s'.mtime t = some m → s.mtime t = some m := by
    intro t m hm
    rcases hs.mtime t with hsame | hnone
    · rwa [hsame] at hm
    · rw [hnone] at hm
      cases hm
  have hclock := hs.clock
  refine ⟨fun t m hm ↦ ?_, fun t e he ↦ ?_, fun t ht ↦ ?_, hs.lastExec ▸ h.exec_inj,
    fun t e he ht ↦ ?_⟩
  · have hlt := h.mtime_lt t m (hkeep t m hm)
    omega
  · have hlt := h.exec_lt t e (hs.lastExec ▸ he)
    omega
  · obtain ⟨m, hm⟩ := Option.ne_none_iff_exists'.mp ht
    rw [hs.lastExec]
    apply h.exec_ne_none t
    rw [hkeep t m hm]
    exact Option.some_ne_none m
  · rw [hs.lastExec] at he
    by_cases hm : s.mtime t = some e
    · rcases hs.mtime t with hsame | hnone
      · exact absurd (hsame.trans hm) ht
      · exact .missing hnone
    · exact (h.stale t e he hm).remove hs.mtime

/-- The last execution of a target that is not due has touched it. -/
theorem Sound.exec_eq (h : Sound R s) (ht : ¬ Due R s.mtime t) :
    ∃ e, s.lastExec t = some e ∧ s.mtime t = some e := by
  have hm : s.mtime t ≠ none := fun hnone ↦ ht (.missing hnone)
  obtain ⟨e, he⟩ := Option.ne_none_iff_exists'.mp (h.exec_ne_none t hm)
  refine ⟨e, he, ?_⟩
  by_contra hne
  exact ht (h.stale t e he hne)

variable [DecidableEq τ]

/-- A recipe is started when its target is due, whether it touches the target or not. -/
theorem Sound.exec (h : Sound R s) (touched : Bool) (hdue : Due R s.mtime t) :
    Sound R (s.exec t touched) := by
  have hself := s.exec_lastExec_self t touched
  have hexec : ∀ u, u ≠ t → (s.exec t touched).lastExec u = s.lastExec u := fun _ ↦
    s.exec_lastExec_of_ne touched
  have hmtime : ∀ u, u ≠ t → (s.exec t touched).mtime u = s.mtime u := fun _ ↦
    s.exec_mtime_of_ne touched
  refine ⟨fun u m hm ↦ ?_, fun u e he ↦ ?_, fun u hu ↦ ?_, fun u v e hu hv ↦ ?_, fun u e he hm ↦ ?_⟩
  · by_cases hut : u = t
    · subst hut
      cases touched with
      | true =>
        obtain rfl := Option.some.inj ((s.exec_mtime_self u).symm.trans hm)
        show s.clock < s.clock + 1
        omega
      | false =>
        have hlt := h.mtime_lt u m hm
        show m < s.clock + 1
        omega
    · have hlt := h.mtime_lt u m ((hmtime u hut).symm.trans hm)
      show m < s.clock + 1
      omega
  · by_cases hut : u = t
    · subst hut
      obtain rfl := Option.some.inj (hself.symm.trans he)
      show s.clock < s.clock + 1
      omega
    · have hlt := h.exec_lt u e ((hexec u hut).symm.trans he)
      show e < s.clock + 1
      omega
  · by_cases hut : u = t
    · subst hut
      rw [hself]
      exact Option.some_ne_none _
    · rw [hexec u hut]
      exact h.exec_ne_none u (hmtime u hut ▸ hu)
  · -- nothing else was started at this time
    have hold : ∀ w, w ≠ t → (s.exec t touched).lastExec w ≠ some s.clock := by
      intro w hw hclock
      have hlt := h.exec_lt w _ ((hexec w hw).symm.trans hclock)
      omega
    by_cases hut : u = t <;> by_cases hvt : v = t
    · rw [hut, hvt]
    · subst hut
      obtain rfl := Option.some.inj (hself.symm.trans hu)
      exact absurd hv (hold v hvt)
    · subst hvt
      obtain rfl := Option.some.inj (hself.symm.trans hv)
      exact absurd hu (hold u hut)
    · exact h.exec_inj u v e ((hexec u hut).symm.trans hu) ((hexec v hvt).symm.trans hv)
  · by_cases hut : u = t
    · subst hut
      obtain rfl := Option.some.inj (hself.symm.trans he)
      cases touched with
      | true => exact absurd (s.exec_mtime_self u) hm
      | false => exact hdue
    · have hstale := h.stale u e ((hexec u hut).symm.trans he) (hmtime u hut ▸ hm)
      cases touched with
      | true => exact hstale.touch hut h.mtime_lt
      | false => exact hstale

end Sound

/-! ### During a run -/

/-- What holds during a run, of the targets that it has been through. -/
structure InRun (R : Rules τ) (s : Run τ) : Prop where
  sound : Sound R s.toDisk
  closed : ∀ t ∈ s.considered, ∀ p ∈ R.prereqs t, p ∈ s.considered
  upToDate : ∀ t ∈ s.considered, ¬ Due R s.mtime t
  remade : ∀ p ∈ s.remade, ∃ n, s.mtime p = some n ∧
    ∀ t m, t ∉ s.considered → s.mtime t = some m → m < n

section InRun

variable {R : Rules τ} {s s' : Run τ} {t p : τ}

/-- A run starts. -/
theorem inRun_start {s : Disk τ} (h : Sound R s) : InRun R (Run.start s) :=
  ⟨h, nofun, nofun, nofun⟩

/-- The recipe of a normal prerequisite was last executed before that of its target. -/
theorem InRun.exec_lt (h : InRun R s) (ht : t ∈ s.considered) (hp : p ∈ R.normal t) :
    ∃ e f, s.lastExec p = some e ∧ s.lastExec t = some f ∧ e < f := by
  have hpc := h.closed t ht p (List.mem_append_left _ hp)
  obtain ⟨e, he, hem⟩ := h.sound.exec_eq (h.upToDate p hpc)
  obtain ⟨f, hf, hfm⟩ := h.sound.exec_eq (h.upToDate t ht)
  have hle : e ≤ f := by
    by_contra hlt
    exact h.upToDate t ht (.newer hp hfm hem (by omega))
  have hne : e ≠ f := by
    intro heq
    subst heq
    have hrank := R.rank_lt t p (List.mem_append_left _ hp)
    rw [h.sound.exec_inj p t e he hf] at hrank
    omega
  exact ⟨e, f, he, hf, by omega⟩

variable [DecidableEq τ]

/-- A target that is ready is remade just when it is due. -/
theorem InRun.due_iff (h : InRun R s) (hready : Ready R s t) :
    Due R s.mtime t ↔ s.mustRemake R t = true := by
  unfold Run.mustRemake
  constructor
  · intro hdue
    split
    · rfl
    · next m hm =>
      rw [List.any_eq_true]
      cases hdue with
      | missing hnone =>
        rw [hnone] at hm
        cases hm
      | @newer _ p m' n hp ht hpn hlt =>
        obtain rfl := Option.some.inj (ht.symm.trans hm)
        exact ⟨p, hp, by simp [hpn, hlt]⟩
      | @prereq _ p hp hdue =>
        exact absurd hdue (h.upToDate p (hready.prereqs p (List.mem_append_left _ hp)))
  · intro hmust
    split at hmust
    · next hnone => exact .missing hnone
    · next m hm =>
      obtain ⟨p, hp, hnew⟩ := List.any_eq_true.mp hmust
      rcases Bool.or_eq_true_iff.mp hnew with hremade | hnewer
      · obtain ⟨n, hn, hlt⟩ := h.remade p (by simpa using hremade)
        exact .newer hp hm hn (hlt t m hready.fresh hm)
      · cases hpm : s.mtime p with
        | none => exact .prereq hp (.missing hpm)
        | some n =>
          rw [hpm] at hnewer
          exact .newer hp hm hpm (by simpa using hnewer)

/-- Every move keeps the invariant. -/
theorem InRun.move (h : InRun R s) (hm : Move R s s') : InRun R s' := by
  cases hm with
  | @keep t hready hmust =>
    have hdue : ¬ Due R s.mtime t := by
      rw [h.due_iff hready, hmust]
      exact Bool.false_ne_true
    refine ⟨h.sound, fun u hu p hp ↦ ?_, fun u hu ↦ ?_, fun p hp ↦ ?_⟩
    · rcases List.mem_cons.mp hu with rfl | hu
      · exact List.mem_cons_of_mem _ (hready.prereqs p hp)
      · exact List.mem_cons_of_mem _ (h.closed u hu p hp)
    · rcases List.mem_cons.mp hu with rfl | hu
      · exact hdue
      · exact h.upToDate u hu
    · obtain ⟨n, hn, hlt⟩ := h.remade p hp
      exact ⟨n, hn, fun u m hu ↦ hlt u m fun hold ↦ hu (List.mem_cons_of_mem _ hold)⟩
  | @remake t hready hmust =>
    have hself : (s.remake t).mtime t = some s.clock := s.exec_mtime_self t
    have hne : ∀ u, u ≠ t → (s.remake t).mtime u = s.mtime u := fun _ ↦ s.exec_mtime_of_ne true
    have hclosed : ∀ u ∈ s.considered, ∀ p ∈ R.normal u, p ∈ s.considered :=
      fun u hu p hp ↦ h.closed u hu p (List.mem_append_left _ hp)
    -- what has been considered is not made from the new target
    have hold : ∀ u ∈ s.considered, ¬ Due R (s.remake t).mtime u := fun u hu hdue ↦
      h.upToDate u hu (hdue.congr hu hclosed fun v hv ↦
        (hne v fun hvt ↦ hready.fresh (hvt ▸ hv)).symm)
    refine ⟨h.sound.exec true ((h.due_iff hready).mpr hmust), fun u hu p hp ↦ ?_, fun u hu ↦ ?_,
      fun p hp ↦ ?_⟩
    · rcases List.mem_cons.mp hu with rfl | hu
      · exact List.mem_cons_of_mem _ (hready.prereqs p hp)
      · exact List.mem_cons_of_mem _ (h.closed u hu p hp)
    · rcases List.mem_cons.mp hu with rfl | hu
      · intro hdue
        have hpre : ∀ p ∈ R.normal u, p ∈ s.considered := fun p hp ↦
          hready.prereqs p (List.mem_append_left _ hp)
        cases hdue with
        | missing hnone =>
          rw [hself] at hnone
          cases hnone
        | @newer _ p m n hp ht hpn hlt =>
          obtain rfl := Option.some.inj (hself.symm.trans ht)
          have hpu : p ≠ u := fun hpu ↦ hready.fresh (hpu ▸ hpre p hp)
          have hold := h.sound.mtime_lt p n ((hne p hpu).symm.trans hpn)
          omega
        | @prereq _ p hp hdue => exact hold p (hpre p hp) hdue
      · exact hold u hu
    · have hlt : ∀ u m, u ∉ (s.remake t).considered → (s.remake t).mtime u = some m → m < s.clock := by
        intro u m hu hm
        have hut : u ≠ t := fun hut ↦ hu (hut ▸ List.mem_cons_self)
        exact h.sound.mtime_lt u m (hne u hut ▸ hm)
      rcases List.mem_cons.mp hp with rfl | hp
      · exact ⟨s.clock, hself, hlt⟩
      · by_cases hpt : p = t
        · subst hpt
          exact ⟨s.clock, hself, hlt⟩
        · obtain ⟨n, hn, hlt⟩ := h.remade p hp
          refine ⟨n, (hne p hpt).trans hn, fun u m hu hm ↦ ?_⟩
          have hut : u ≠ t := fun hut ↦ hu (hut ▸ List.mem_cons_self)
          exact hlt u m (fun hmem ↦ hu (List.mem_cons_of_mem _ hmem)) (hne u hut ▸ hm)

/-- A failure leaves the stamps sound. -/
theorem InRun.halt {s' : Disk τ} (h : InRun R s) (hh : Halt R s s') : Sound R s' := by
  cases hh with
  | fail touched hready hmust => exact h.sound.exec touched ((h.due_iff hready).mpr hmust)
  | stop => exact h.sound.shrinks (shrinks_tick _)

/-- The invariant at the end of a run of moves. -/
theorem InRun.moves (h : InRun R s) (hm : Relation.ReflTransGen (Move R) s s') : InRun R s' := by
  induction hm with
  | refl => exact h
  | tail _ hm ih => exact ih.move hm

end InRun

end MotionPie.Make
