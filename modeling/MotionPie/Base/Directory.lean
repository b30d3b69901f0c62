import Mathlib.Data.List.AList

/-!
# Directories

A directory is a finite map from names to contents. Loops over a listing rename or edit the files of
one kind; what they leave is described name by name. Names and contents are arbitrary.
-/

namespace MotionPie.Base

universe u v w

variable {α : Type u} {β : Type v} {ι : Type w}

/-- A directory. -/
abbrev Directory (α : Type u) (β : Type v) := AList fun _ : α ↦ β

/-- The numbers in a listing are those of the files. -/
theorem mem_numbers {d : Directory α β} {key : ι → α} {number : α → Option ι}
    (hkey : Function.IsPartialInv key number) (i : ι) :
    i ∈ d.keys.filterMap number ↔ key i ∈ d := by
  rw [List.mem_filterMap, AList.mem_keys]
  constructor
  · intro ⟨x, hx, hi⟩
    rw [hkey] at hi
    exact hi ▸ hx
  · exact fun h ↦ ⟨key i, h, (hkey i _).mpr rfl⟩

/-- No number is listed twice. -/
theorem nodup_numbers {d : Directory α β} {key : ι → α} {number : α → Option ι}
    (hkey : Function.IsPartialInv key number) :
    (d.keys.filterMap number).Nodup := by
  apply List.Nodup.filterMap _ d.keys_nodup
  intro x y i hx hy
  rw [Option.mem_def, hkey] at hx hy
  exact hx.symm.trans hy

variable [DecidableEq α]

/-- `os.rename`. A file that has the new name is replaced. -/
def rename (a b : α) (d : Directory α β) : Directory α β :=
  match d.lookup a with
  | some c => (d.erase a).insert b c
  | none => d

/-- A file is renamed for each number of the list. -/
def renameAll (src dst : ι → α) (is : List ι) (d : Directory α β) : Directory α β :=
  is.foldl (fun d i ↦ rename (src i) (dst i) d) d

variable {a b x : α} {d : Directory α β}

/-- A file after a write. -/
theorem lookup_insert (d : Directory α β) (a : α) (c : β) (x : α) :
    (d.insert a c).lookup x = if x = a then some c else d.lookup x := by
  by_cases h : x = a
  · subst h
    simp
  · rw [if_neg h, AList.lookup_insert_ne h]

/-- A file after a deletion. -/
theorem lookup_erase (d : Directory α β) (a x : α) :
    (d.erase a).lookup x = if x = a then none else d.lookup x := by
  by_cases h : x = a
  · subst h
    simp
  · rw [if_neg h, AList.lookup_erase_ne h]

/-- A file after a renaming. -/
theorem lookup_rename (h : a ∈ d) (x : α) :
    (rename a b d).lookup x =
      if x = b then d.lookup a else if x = a then none else d.lookup x := by
  obtain ⟨c, hc⟩ := Option.isSome_iff_exists.mp (AList.lookup_isSome.mpr h)
  rw [rename, hc]
  simp only [lookup_insert, lookup_erase]

/-! ### Loops over a listing -/

section Loops

variable {src dst key : ι → α} {is : List ι}

/-- The files that are listed are found under their new names. -/
theorem lookup_renameAll [DecidableEq ι] (hsrc : src.Injective) (hdst : dst.Injective)
    (hne : ∀ i j, src i ≠ dst j) (hnodup : is.Nodup) (hmem : ∀ i ∈ is, src i ∈ d) (i : ι) :
    (renameAll src dst is d).lookup (src i) = (if i ∈ is then none else d.lookup (src i)) ∧
      (renameAll src dst is d).lookup (dst i) =
        if i ∈ is then d.lookup (src i) else d.lookup (dst i) := by
  induction is generalizing d with
  | nil => exact ⟨rfl, rfl⟩
  | cons j is ih =>
    rw [List.forall_mem_cons] at hmem
    obtain ⟨hj, hnodup⟩ := List.nodup_cons.mp hnodup
    have hsrcs : ∀ i, (rename (src j) (dst j) d).lookup (src i) =
        if i = j then none else d.lookup (src i) := by
      intro i
      rw [lookup_rename hmem.1, if_neg (hne i j)]
      simp only [hsrc.eq_iff]
    have hdsts : ∀ i, (rename (src j) (dst j) d).lookup (dst i) =
        if i = j then d.lookup (src j) else d.lookup (dst i) := by
      intro i
      rw [lookup_rename hmem.1, if_neg (Ne.symm (hne j i))]
      simp only [hdst.eq_iff]
    have hrest : ∀ i ∈ is, src i ∈ rename (src j) (dst j) d := by
      intro i hi
      have hij : i ≠ j := fun h ↦ hj (h ▸ hi)
      rw [← AList.lookup_isSome, hsrcs, if_neg hij, AList.lookup_isSome]
      exact hmem.2 i hi
    obtain ⟨hsrcRest, hdstRest⟩ := ih hnodup hrest
    rw [renameAll, List.foldl_cons]
    refine ⟨hsrcRest.trans ?_, hdstRest.trans ?_⟩
    · rw [hsrcs]
      by_cases hij : i = j <;> simp [hij]
    · rw [hsrcs, hdsts]
      by_cases hij : i = j
      · subst hij
        simp [hj]
      · simp [hij]

/-- All files with an old name replace those with the new one. -/
theorem lookup_renameAll_numbers [DecidableEq ι] {number : α → Option ι}
    (hsrc : Function.IsPartialInv src number) (hdst : dst.Injective) (hne : ∀ i j, src i ≠ dst j)
    (d : Directory α β) (i : ι) :
    (renameAll src dst (d.keys.filterMap number) d).lookup (src i) = none ∧
      (renameAll src dst (d.keys.filterMap number) d).lookup (dst i) =
        (d.lookup (src i)).or (d.lookup (dst i)) := by
  obtain ⟨hold, hnew⟩ := lookup_renameAll hsrc.injective hdst hne
    (nodup_numbers hsrc) (fun i ↦ (mem_numbers hsrc i).mp) i
  rw [hold, hnew]
  by_cases hi : src i ∈ d
  · obtain ⟨c, hc⟩ := Option.isSome_iff_exists.mp (AList.lookup_isSome.mpr hi)
    have hlisted := (mem_numbers hsrc i).mpr hi
    rw [if_pos hlisted, if_pos hlisted, hc]
    exact ⟨rfl, rfl⟩
  · have hunlisted := mt (mem_numbers hsrc i).mp hi
    rw [if_neg hunlisted, if_neg hunlisted, AList.lookup_eq_none.mpr hi]
    exact ⟨rfl, rfl⟩

/-- The files that are listed are edited, the others are left alone. A file is deleted when the
edit has no result. -/
theorem lookup_foldl_edit (hkey : key.Injective) {step : Directory α β → ι → Directory α β}
    {f : β → Option β}
    (hstep : ∀ d i c, d.lookup (key i) = some c →
      ∀ x, (step d i).lookup x = if x = key i then f c else d.lookup x)
    (hnodup : is.Nodup) (hmem : ∀ i ∈ is, key i ∈ d) (x : α) :
    (is.foldl step d).lookup x =
      if ∃ i ∈ is, x = key i then (d.lookup x).bind f else d.lookup x := by
  induction is generalizing d with
  | nil => simp
  | cons j is ih =>
    rw [List.forall_mem_cons] at hmem
    obtain ⟨hj, hnodup⟩ := List.nodup_cons.mp hnodup
    obtain ⟨c, hc⟩ := Option.isSome_iff_exists.mp (AList.lookup_isSome.mpr hmem.1)
    have hrest : ∀ i ∈ is, key i ∈ step d j := by
      intro i hi
      have hij : key i ≠ key j := fun h ↦ hj (hkey h ▸ hi)
      rw [← AList.lookup_isSome, hstep d j c hc, if_neg hij, AList.lookup_isSome]
      exact hmem.2 i hi
    rw [List.foldl_cons, ih hnodup hrest, hstep d j c hc]
    by_cases hx : x = key j
    · subst hx
      have hnot : ¬ ∃ i ∈ is, key j = key i := fun ⟨i, hi, h⟩ ↦ hj (hkey h ▸ hi)
      simp [hnot, hc]
    · simp [hx]

end Loops

end MotionPie.Base
