import Mathlib.Logic.Function.Basic
import Mathlib.Logic.Relation

/-!
# How make remakes targets

Targets are stamps: a recipe that succeeds touches its target. A target is remade when it is
missing, or when a normal prerequisite is missing, newer or has been remade in the same run;
an order-only prerequisite is only brought up to date first. The first command that fails
ends the run. Which commands fail is an oracle, asked at every tick of a clock; the targets
and the rules are arbitrary.
-/

namespace MotionPie.Make

/-- The rules of a makefile, without cycles. -/
structure Rules (τ : Type) where
  normal : τ → List τ
  orderOnly : τ → List τ
  rank : τ → Nat
  rank_lt : ∀ t, ∀ p ∈ normal t ++ orderOnly t, rank p < rank t

/-- All prerequisites of a target. -/
def Rules.prereqs {τ : Type} (R : Rules τ) (t : τ) : List τ := R.normal t ++ R.orderOnly t

/-- What one run leaves to the next: the modification times of the targets, and when the
recipe of each was last started. -/
structure Disk (τ : Type) where
  clock : Nat
  mtime : τ → Option Nat
  lastExec : τ → Option Nat

/-- A run of make, with the targets that it has been through and those it has remade. -/
structure Run (τ : Type) extends Disk τ where
  considered : List τ
  remade : List τ

/-- How a command ends. One that fails may have changed some stamps already; `stop` is a
failure of something else before the command is started. -/
inductive Outcome (τ : Type)
  | ok
  | fail (changed : τ → Bool)
  | stop

section Engine

variable {τ : Type} [DecidableEq τ]

/-- Before the first run. -/
def Disk.empty : Disk τ := ⟨0, fun _ ↦ none, fun _ ↦ none⟩

/-- Time passes. -/
def Disk.tick (s : Disk τ) : Disk τ := { s with clock := s.clock + 1 }

/-- Delete stamps. -/
def Disk.remove (s : Disk τ) (gone : τ → Bool) : Disk τ :=
  { s with clock := s.clock + 1, mtime := fun t ↦ if gone t then none else s.mtime t }

/-- Start the recipe of a target, that touches it or not. -/
def Disk.exec (s : Disk τ) (t : τ) (touched : Bool) : Disk τ where
  clock := s.clock + 1
  mtime := if touched then Function.update s.mtime t (some s.clock) else s.mtime
  lastExec := Function.update s.lastExec t (some s.clock)

theorem Disk.exec_lastExec_self (s : Disk τ) (t : τ) (touched : Bool) :
    (s.exec t touched).lastExec t = some s.clock := Function.update_self _ _ _

theorem Disk.exec_lastExec_of_ne (s : Disk τ) {t u : τ} (touched : Bool) (h : u ≠ t) :
    (s.exec t touched).lastExec u = s.lastExec u := Function.update_of_ne h _ _

theorem Disk.exec_mtime_self (s : Disk τ) (t : τ) : (s.exec t true).mtime t = some s.clock :=
  Function.update_self _ _ _

theorem Disk.exec_mtime_of_ne (s : Disk τ) {t u : τ} (touched : Bool) (h : u ≠ t) :
    (s.exec t touched).mtime u = s.mtime u := by
  cases touched with
  | true => exact Function.update_of_ne h _ _
  | false => rfl

/-- A new run. -/
def Run.start (s : Disk τ) : Run τ := ⟨s, [], []⟩

/-- The target has to be remade. -/
def Run.mustRemake (R : Rules τ) (s : Run τ) (t : τ) : Bool :=
  match s.mtime t with
  | none => true
  | some m => (R.normal t).any fun p ↦ p ∈ s.remade || (s.mtime p).all (m < ·)

/-- The target is up to date. -/
def Run.keep (s : Run τ) (t : τ) : Run τ := { s with considered := t :: s.considered }

/-- The target has been remade. -/
def Run.remake (s : Run τ) (t : τ) : Run τ where
  toDisk := s.toDisk.exec t true
  considered := t :: s.considered
  remade := t :: s.remade

/-- A target whose prerequisites are up to date. -/
def consider (R : Rules τ) (o : Nat → Outcome τ) (t : τ) (s : Run τ) : Except (Run τ) (Run τ) :=
  if s.mustRemake R t then
    match o s.clock with
    | .ok => .ok (s.remake t)
    | .fail changed => .error { s with toDisk := s.toDisk.exec t (changed t) }
    | .stop => .error { s with toDisk := s.toDisk.tick }
  else .ok (s.keep t)

/-- Bring a target up to date, to a depth of prerequisites. -/
def update (R : Rules τ) (o : Nat → Outcome τ) : Nat → τ → Run τ → Except (Run τ) (Run τ)
  | 0, _, s => .error s
  | n + 1, t, s =>
    if t ∈ s.considered then .ok s
    else (R.prereqs t).foldlM (fun s p ↦ update R o n p s) s >>= consider R o t

/-- Bring the goals up to date. -/
def make (R : Rules τ) (o : Nat → Outcome τ) (goals : List τ) (s : Disk τ) :
    Except (Run τ) (Run τ) :=
  goals.foldlM (fun s t ↦ update R o (R.rank t + 1) t s) (Run.start s)

/-! ### The moves of a run -/

/-- The target is next: it has not been considered, and its prerequisites have. -/
structure Ready (R : Rules τ) (s : Run τ) (t : τ) : Prop where
  fresh : t ∉ s.considered
  prereqs : ∀ p ∈ R.prereqs t, p ∈ s.considered

/-- A run goes on. -/
inductive Move (R : Rules τ) : Run τ → Run τ → Prop
  | keep {s t} : Ready R s t → s.mustRemake R t = false → Move R s (s.keep t)
  | remake {s t} : Ready R s t → s.mustRemake R t = true → Move R s (s.remake t)

/-- A run ends with a failure. -/
inductive Halt (R : Rules τ) : Run τ → Disk τ → Prop
  | fail {s t} (touched : Bool) : Ready R s t → s.mustRemake R t = true →
      Halt R s (s.toDisk.exec t touched)
  | stop {s} : Halt R s s.toDisk.tick

/-- A run ends after some moves. -/
def Ends (R : Rules τ) (s : Run τ) (goals : List τ) : Except (Run τ) (Run τ) → Prop
  | .ok s' => Relation.ReflTransGen (Move R) s s' ∧ ∀ t ∈ goals, t ∈ s'.considered
  | .error s' => ∃ s₁, Relation.ReflTransGen (Move R) s s₁ ∧ Halt R s₁ s'.toDisk

variable {R : Rules τ} {o : Nat → Outcome τ} {s s' s₁ : Run τ} {t : τ} {goals : List τ}

private theorem Move.considered (h : Relation.ReflTransGen (Move R) s s') {u : τ}
    (hu : u ∈ s.considered) : u ∈ s'.considered := by
  induction h with
  | refl => exact hu
  | tail _ hm ih =>
    cases hm with
    | keep _ _ => exact List.mem_cons_of_mem _ ih
    | remake _ _ => exact List.mem_cons_of_mem _ ih

private theorem Ends.trans {r : Except (Run τ) (Run τ)}
    (hfirst : Relation.ReflTransGen (Move R) s s₁) (h : Ends R s₁ goals r) : Ends R s goals r := by
  cases r with
  | ok s' => exact ⟨hfirst.trans h.1, h.2⟩
  | error s' =>
    obtain ⟨s₂, hmoves, hhalt⟩ := h
    exact ⟨s₂, hfirst.trans hmoves, hhalt⟩

/-- A loop of runs is a run, if each turn is. -/
private theorem ends_foldlM {f : Run τ → τ → Except (Run τ) (Run τ)} (P : Run τ → Prop)
    (hP : ∀ s s' t, t ∈ goals → P s → f s t = .ok s' → P s')
    (hf : ∀ s t, t ∈ goals → P s → Ends R s [t] (f s t)) (hs : P s) :
    Ends R s goals (goals.foldlM f s) ∧ ∀ s', goals.foldlM f s = .ok s' → P s' := by
  induction goals generalizing s with
  | nil =>
    refine ⟨⟨.refl, nofun⟩, fun s' hs' ↦ ?_⟩
    obtain rfl := Except.ok.inj hs'
    exact hs
  | cons t goals ih =>
    have hturn := hf s t List.mem_cons_self hs
    rw [List.foldlM_cons]
    cases hrun : f s t with
    | error s' =>
      rw [hrun] at hturn
      exact ⟨hturn, nofun⟩
    | ok s₁ =>
      rw [hrun] at hturn
      obtain ⟨hends, hend⟩ := ih (fun s s' u hu ↦ hP s s' u (List.mem_cons_of_mem _ hu))
        (fun s u hu ↦ hf s u (List.mem_cons_of_mem _ hu)) (hP s s₁ t List.mem_cons_self hs hrun)
      refine ⟨?_, hend⟩
      change Ends R s (t :: goals) (goals.foldlM f s₁)
      cases hrest : goals.foldlM f s₁ with
      | error s' =>
        rw [hrest] at hends
        exact hends.trans hturn.1
      | ok s' =>
        rw [hrest] at hends
        refine ⟨hturn.1.trans hends.1, fun u hu ↦ ?_⟩
        rcases List.mem_cons.mp hu with rfl | hu
        · exact Move.considered hends.1 (hturn.2 _ (List.mem_singleton_self _))
        · exact hends.2 u hu

private theorem consider_ends (hready : Ready R s t) : Ends R s [t] (consider R o t s) := by
  unfold consider
  split
  · next hmust =>
    split
    · refine ⟨.single (.remake hready hmust), fun u hu ↦ ?_⟩
      exact List.mem_singleton.mp hu ▸ List.mem_cons_self
    · exact ⟨s, .refl, .fail _ hready hmust⟩
    · exact ⟨s, .refl, .stop⟩
  · next hmust =>
    refine ⟨.single (.keep hready (by simpa using hmust)), fun u hu ↦ ?_⟩
    exact List.mem_singleton.mp hu ▸ List.mem_cons_self

private theorem considered_consider (h : consider R o t s = .ok s') {u : τ}
    (hu : u ∈ s'.considered) : u = t ∨ u ∈ s.considered := by
  unfold consider at h
  split at h
  · split at h <;> cases h
    exact List.mem_cons.mp hu
  · cases h
    exact List.mem_cons.mp hu

/-- With enough depth, bringing a target up to date is a run that goes through targets of no
higher rank. -/
theorem update_ends {n : Nat} (hn : R.rank t < n) : Ends R s [t] (update R o n t s) ∧
    ∀ s', update R o n t s = .ok s' → ∀ u ∈ s'.considered, u ∈ s.considered ∨ R.rank u ≤ R.rank t := by
  induction n generalizing t s with
  | zero => omega
  | succ n ih =>
    rw [update]
    split
    · next ht =>
      refine ⟨⟨.refl, fun u hu ↦ List.mem_singleton.mp hu ▸ ht⟩, fun s' hs' u hu ↦ ?_⟩
      obtain rfl := Except.ok.inj hs'
      exact .inl hu
    · next ht =>
      -- the prerequisites have a lower rank, so none of them goes through `t`
      have hturn : ∀ s p, p ∈ R.prereqs t → Ends R s [p] (update R o n p s) ∧
          ∀ s', update R o n p s = .ok s' →
            ∀ u ∈ s'.considered, u ∈ s.considered ∨ R.rank u < R.rank t := by
        intro s p hp
        have hlow : R.rank p < R.rank t := R.rank_lt t p hp
        obtain ⟨hends, hnew⟩ := ih (t := p) (s := s) (by omega)
        refine ⟨hends, fun s' hs' u hu ↦ (hnew s' hs' u hu).imp_right fun hle ↦ ?_⟩
        omega
      obtain ⟨hpre, hrank⟩ := ends_foldlM (R := R) (s := s) (f := fun s p ↦ update R o n p s)
        (fun s₁ ↦ ∀ u ∈ s₁.considered, u ∈ s.considered ∨ R.rank u < R.rank t)
        (fun s₁ s₂ p hp h₁ h₂ u hu ↦ ((hturn s₁ p hp).2 s₂ h₂ u hu).elim (h₁ u) .inr)
        (fun s₁ p hp _ ↦ (hturn s₁ p hp).1) fun u hu ↦ .inl hu
      cases hloop : (R.prereqs t).foldlM (fun s p ↦ update R o n p s) s with
      | error s' =>
        rw [hloop] at hpre
        exact ⟨hpre, nofun⟩
      | ok s₁ =>
        rw [hloop] at hpre
        have hlow₁ := hrank s₁ hloop
        have hready : Ready R s₁ t := by
          refine ⟨fun hmem ↦ ?_, hpre.2⟩
          rcases hlow₁ t hmem with hold | hlt
          · exact ht hold
          · omega
        refine ⟨(consider_ends hready).trans hpre.1, fun s' hs' u hu ↦ ?_⟩
        rcases considered_consider hs' hu with rfl | hu
        · exact .inr (Nat.le_refl _)
        · exact (hlow₁ u hu).imp_right Nat.le_of_lt

/-- A run of make goes through moves, and through its goals when it succeeds. -/
theorem make_ends (s : Disk τ) : Ends R (Run.start s) goals (make R o goals s) :=
  (ends_foldlM (fun _ ↦ True) (fun _ _ _ _ _ _ ↦ trivial)
    (fun _ _ _ _ ↦ (update_ends (Nat.lt_succ_self _)).1) trivial).1

end Engine

end MotionPie.Make
