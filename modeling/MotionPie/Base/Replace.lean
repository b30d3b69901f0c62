import MotionPie.Base.Scan

/-!
# Texts in pieces

A text is taken in pieces and each piece is replaced. When a piece starts with a marker and holds
it nowhere else, the markers say where the pieces begin, so the whole text is the same after the
replacement only if every piece is.
-/

namespace MotionPie.Base

universe u v

variable {α : Type u} {ι : Type v} [DecidableEq α] {d : α} {f g : ι → List α} {L : List ι}

/-- The same text, or two texts that have a marker at the start and nowhere else. -/
def Aligned (d : α) (s t : List α) : Prop :=
  s = t ∨ ∃ s' t', s = d :: s' ∧ t = d :: t' ∧ d ∉ s' ∧ d ∉ t'

/-- A replacement that adds no marker to a piece adds none to the text. -/
theorem count_flatMap_le (h : ∀ x ∈ L, (g x).count d ≤ (f x).count d) :
    (L.flatMap g).count d ≤ (L.flatMap f).count d := by
  induction L with
  | nil => simp
  | cons x L ih =>
    rw [List.forall_mem_cons] at h
    have htail := ih h.2
    simp only [List.flatMap_cons, List.count_append]
    omega

/-- Where no marker is lost in the text, none is lost in a piece. -/
theorem count_eq_of_flatMap (h : ∀ x ∈ L, (g x).count d ≤ (f x).count d)
    (hcount : (L.flatMap g).count d = (L.flatMap f).count d) :
    ∀ x ∈ L, (g x).count d = (f x).count d := by
  induction L with
  | nil => simp
  | cons x L ih =>
    rw [List.forall_mem_cons] at h ⊢
    have htail := count_flatMap_le h.2
    simp only [List.flatMap_cons, List.count_append] at hcount
    constructor
    · omega
    · apply ih h.2
      omega

/-- Up to the first marker the text is the same after the replacement. -/
theorem takeWhile_flatMap (h : ∀ x ∈ L, Aligned d (f x) (g x)) :
    (L.flatMap f).takeWhile (· ≠ d) = (L.flatMap g).takeWhile (· ≠ d) := by
  induction L with
  | nil => rfl
  | cons x L ih =>
    rw [List.forall_mem_cons] at h
    rcases h.1 with heq | ⟨s, t, hs, ht, -, -⟩
    · simp only [List.flatMap_cons, heq, List.takeWhile_append, ih h.2]
    · simp [hs, ht]

/-- The text is the same only if every piece is. -/
theorem eq_of_flatMap_eq (h : ∀ x ∈ L, Aligned d (f x) (g x)) (heq : L.flatMap f = L.flatMap g) :
    ∀ x ∈ L, f x = g x := by
  induction L with
  | nil => simp
  | cons x L ih =>
    rw [List.forall_mem_cons] at h ⊢
    simp only [List.flatMap_cons] at heq
    have hx : f x = g x := by
      rcases h.1 with hsame | ⟨s, t, hs, ht, hds, hdt⟩
      · exact hsame
      · rw [hs, ht, List.cons_append, List.cons_append] at heq
        rw [hs, ht]
        have htext := congrArg (List.takeWhile (· ≠ d)) (List.cons.inj heq).2
        rw [List.takeWhile_append_of_pos (forall_ne hds), List.takeWhile_append_of_pos (forall_ne hdt),
          takeWhile_flatMap h.2] at htext
        exact congrArg (d :: ·) (List.append_cancel_right htext)
    rw [hx] at heq
    exact ⟨hx, ih h.2 (List.append_cancel_left heq)⟩

end MotionPie.Base
