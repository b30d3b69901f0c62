import MotionPie.Package.Makedevs.Main

/-!
# Lines on their own

What a line does should not depend on the lines before it. The arrays for the user and the group
are not set before the scan, `package/makedevs/makedevs.c:428-447`, and the scan may end before it
comes to them.
-/

namespace MotionPie.Package.Makedevs

open Base

/-- How many fields of a line are read. -/
def converted (line : Bytes) : ℕ := (sscanf format line (Memory.fields ⟨[], 0, [], []⟩)).1

/-- What the line does is the same behind all tables, and with all contents of memory, that come to
it with the same files. -/
def Independent (line : Bytes) : Prop :=
  ∀ (σ : Type) (kernel : Kernel σ) (env : Env) (table₁ table₂ : List Bytes)
    (memory₁ memory₂ : Memory) (files₁ files₂ : σ) (s₁ s₂ : Session σ),
    run kernel env table₁ (start memory₁ files₁) = some (.ok s₁) →
    run kernel env table₂ (start memory₂ files₂) = some (.ok s₂) → s₁.files = s₂.files →
    treat kernel env s₁.memory s₁.files line = treat kernel env s₂.memory s₂.files line

variable {line : Bytes}

/-! ### The scan and what memory holds -/

/-- The conversions one by one. -/
theorem format_eq : format =
    scanString 4095 (fun w v ↦ { v with name := w }) ::
    scanChar (fun c v ↦ { v with type := c }) ::
    scanUnsigned 8 (fun n v ↦ { v with mode := n }) ::
    scanString 40 (fun w v ↦ { v with user := w }) ::
    scanString 40 (fun w v ↦ { v with group := w }) :: numbers.map (scanUnsigned 10) := rfl

/-- A scan that does not come to the type, one that does not come to the group, and one that sets
all that was not set before. -/
theorem sscanf_format (line : Bytes) :
    (∃ n < 2, ∀ memory : Memory, (sscanf format line memory.fields).1 = n) ∨
    (∃ n, 2 ≤ n ∧ n < 5 ∧ ∃ name type mode, ∃ user : Bytes → Bytes, ∀ memory : Memory,
      sscanf format line memory.fields =
        (n, ⟨name, type, mode, user memory.user, memory.group, 0, 0, 0, 0, 0⟩)) ∨
    ∃ n, 5 ≤ n ∧ ∃ v, ∀ memory : Memory, sscanf format line memory.fields = (n, v) := by
  rw [format_eq]
  rcases reads_scanString 4095 (fun w (v : Fields) ↦ { v with name := w }) line with
    h₁ | ⟨t₁, name, h₁⟩
  · exact .inl ⟨0, by decide, fun memory ↦ by rw [sscanf_none (h₁ _)]⟩
  rcases reads_scanChar (fun c (v : Fields) ↦ { v with type := c }) t₁ with h₂ | ⟨t₂, type, h₂⟩
  · exact .inl ⟨1, by decide, fun memory ↦ by rw [sscanf_cons (h₁ _), sscanf_none (h₂ _)]⟩
  rcases reads_scanUnsigned 8 (fun n (v : Fields) ↦ { v with mode := n }) t₂ with
    h₃ | ⟨t₃, mode, h₃⟩
  · exact .inr (.inl ⟨2, by decide, by decide, name, type, 0o755, id, fun memory ↦ by
      rw [sscanf_cons (h₁ _), sscanf_cons (h₂ _), sscanf_none (h₃ _)]; rfl⟩)
  rcases reads_scanString 40 (fun w (v : Fields) ↦ { v with user := w }) t₃ with
    h₄ | ⟨t₄, user, h₄⟩
  · exact .inr (.inl ⟨3, by decide, by decide, name, type, mode, id, fun memory ↦ by
      rw [sscanf_cons (h₁ _), sscanf_cons (h₂ _), sscanf_cons (h₃ _), sscanf_none (h₄ _)]; rfl⟩)
  rcases reads_scanString 40 (fun w (v : Fields) ↦ { v with group := w }) t₄ with
    h₅ | ⟨t₅, group, h₅⟩
  · exact .inr (.inl ⟨4, by decide, by decide, name, type, mode, fun _ ↦ user, fun memory ↦ by
      rw [sscanf_cons (h₁ _), sscanf_cons (h₂ _), sscanf_cons (h₃ _), sscanf_cons (h₄ _),
        sscanf_none (h₅ _)]; rfl⟩)
  · refine .inr (.inr ?_)
    obtain ⟨m, v, hrest⟩ : ∃ m v, sscanf (numbers.map (scanUnsigned 10)) t₅
        ⟨name, type, mode, user, group, 0, 0, 0, 0, 0⟩ = (m, v) := ⟨_, _, rfl⟩
    refine ⟨m + 5, Nat.le_add_left 5 m, v, fun memory ↦ ?_⟩
    rw [sscanf_cons (h₁ _), sscanf_cons (h₂ _), sscanf_cons (h₃ _), sscanf_cons (h₄ _),
      sscanf_cons (h₅ _)]
    simp only [Memory.fields, hrest]

/-- A name that is looked up where all names are known gives a number. -/
theorem getUgId_isSome {getxxnam : Bytes → Option UInt32} (h : ∀ s, (getxxnam s).isSome)
    (s : Bytes) : (getUgId getxxnam s).isSome := by
  simp only [getUgId]
  split
  · exact h s
  · rfl

/-! ### Independence -/

/-- A line with all its owners does the same whatever memory holds. -/
theorem treat_of_converted {σ : Type} (kernel : Kernel σ) (env : Env) (files : σ)
    (h : 5 ≤ converted line) (memory₁ memory₂ : Memory) :
    treat kernel env memory₁ files line = treat kernel env memory₂ files line := by
  have hscan : sscanf format line memory₁.fields = sscanf format line memory₂.fields := by
    rcases sscanf_format line with ⟨n, hn, hall⟩ | ⟨n, -, hn, name, type, mode, user, hall⟩ |
      ⟨n, -, v, hall⟩
    · rw [converted, hall] at h
      omega
    · rw [converted, hall] at h
      omega
    · rw [hall, hall]
  rw [treat, treat, check, check, hscan]

/-- With a known group and users that are all known, the program does not end. -/
theorem act_ne_error {σ : Type} {kernel : Kernel σ} {env : Env} {v : Fields} {files : σ}
    (hgroup : getUgId env.getgrnam v.group ≠ none) (huser : ∀ s, (env.getpwnam s).isSome)
    (message : Bytes) : act kernel env v files ≠ some (.error message) := by
  intro hact
  rw [act] at hact
  split at hact
  · next hnone =>
    split at hnone
    · exact hgroup hnone
    · cases hnone
  split at hact
  · next hnone =>
    split at hnone
    · have hsome := getUgId_isSome huser v.user
      rw [hnone] at hsome
      cases hsome
    · cases hnone
  dsimp only at hact
  split at hact
  · obtain ⟨a, -, ha⟩ := Option.map_eq_some_iff.mp hact
    cases ha
  split at hact
  · cases hact
  split at hact
  · cases hact
  · cases hact

/-- A line that is accepted does the same behind all tables and with all contents of memory exactly
when its first five fields are read, up to the group. -/
theorem independent_iff (h : ∃ memory v, check memory line = .accepted v) :
    Independent line ↔ 5 ≤ converted line := by
  constructor
  · intro hsame
    by_contra hless
    obtain ⟨memory, v, hcheck⟩ := h
    rcases sscanf_format line with ⟨n, hn, hall⟩ | ⟨n, hn, -, name, type, mode, user, hall⟩ |
      ⟨n, hn, v, hall⟩
    · -- fewer than two fields are not accepted
      simp only [check, hall, hn, true_or, if_true] at hcheck
      split at hcheck <;> cases hcheck
    · -- the group is what memory holds: a name that is unknown or the number of a group
      have hname : name.head? ≠ some 35 := by
        intro hname
        simp only [check, hall, hname, if_true] at hcheck
        split at hcheck
        · split at hcheck <;> cases hcheck
        · cases hcheck
      have hsmall : ¬ (n < 2 ∨ maxNumber < (0 : UInt32) ||| 0 ||| 0 ||| 0 ||| 0) := by
        rw [not_or]
        exact ⟨by omega, by decide⟩
      have haccepted : ∀ memory : Memory, check memory line =
          .accepted ⟨name, type, mode, user memory.user, memory.group, 0, 0, 0, 0, 0⟩ := by
        intro memory
        simp only [check, hall, if_neg hsmall, if_neg hname]
      have hequal := hsame Unit quiet ⟨[], 0, 0, fun _ ↦ some 0, fun _ ↦ none⟩ [] []
        ⟨[], 0, [], str "x"⟩ ⟨[], 0, [], str "0"⟩ () () _ _ rfl rfl rfl
      simp only [treat, start, haccepted] at hequal
      have hends : act quiet ⟨[], 0, 0, fun _ ↦ some 0, fun _ ↦ none⟩
          ⟨name, type, mode, user [], str "x", 0, 0, 0, 0, 0⟩ () =
          some (.error (str "unknown group name: " ++ str "x")) := rfl
      have hgroup : getUgId (fun _ ↦ none) (str "0") ≠ none := by decide
      rw [hends] at hequal
      exact act_ne_error hgroup (fun _ ↦ rfl) _ hequal.symm
    · rw [converted, hall] at hless
      exact hless hn
  · intro hconverted σ kernel env table₁ table₂ memory₁ memory₂ files₁ files₂ s₁ s₂ _ _ hfiles
    rw [hfiles]
    exact treat_of_converted kernel env s₂.files hconverted s₁.memory s₂.memory

/-- A system that keeps a record of the owners. -/
def owners : Kernel (List (Bytes × UInt32 × UInt32)) where
  mkdir _ _ _ files := (none, files)
  stat _ _ := some .regular
  chmod _ _ files := (none, files)
  chown path uid gid files := (none, files ++ [(path, uid, gid)])
  mknod _ _ _ files := (none, files)
  nftw _ _ files := (none, files)

/-- Behind the comments `# f 0 1 7` and `# f 0 1 8` the line `/f f 644` gives its file to group 7 or
to group 8. -/
theorem comments_matter :
    (∃ v, check ⟨[], 0, [], []⟩ (str "/f f 644") = .accepted v) ∧
    ¬ Independent (str "/f f 644") := by
  refine ⟨⟨⟨str "/f", 102, 0o644, [], [], 0, 0, 0, 0, 0⟩, by decide +kernel⟩, fun hsame ↦ ?_⟩
  have hequal := hsame _ owners rootEnv [str "# f 0 1 7"] [str "# f 0 1 8"] ⟨[], 0, [], []⟩
    ⟨[], 0, [], []⟩ [] [] ⟨⟨str "#", 102, str "1", str "7"⟩, 1, [], false, []⟩
    ⟨⟨str "#", 102, str "1", str "8"⟩, 1, [], false, []⟩ rfl rfl rfl
  have hfiles := congrArg (fun r ↦ (r.bind Except.toOption).map (·.files)) hequal
  revert hfiles
  decide +kernel

/-- A line with a user and a group. -/
theorem independent_iff_owned :
    Independent (str "/f f 644 0 0") ↔ 5 ≤ converted (str "/f f 644 0 0") :=
  independent_iff ⟨⟨[], 0, [], []⟩, ⟨str "/f", 102, 0o644, str "0", str "0", 0, 0, 0, 0, 0⟩,
    by decide +kernel⟩

end MotionPie.Package.Makedevs
