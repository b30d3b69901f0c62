import Mathlib.Logic.Relation
import Mathlib.Order.WellFoundedSet

/-!
# Transitive reduction of an acyclic relation

Reachability is `Relation.TransGen`. An edge is covered when another successor of
its source reaches its target; deleting the covered edges of one node at a time
keeps reachability, and on an acyclic relation with finite successor sets the
result is the only transitive reduction. Node types and relations are arbitrary.
-/

namespace MotionPie.Graph

open Relation

universe u

variable {α : Type u}

/-- No node reaches itself. -/
def Acyclic (r : α → α → Prop) : Prop := ∀ a, ¬ TransGen r a a

/-- Another successor of `a` reaches `b`. -/
def Covered (r : α → α → Prop) (a b : α) : Prop := ∃ c, c ≠ b ∧ r a c ∧ TransGen r c b

/-- `s` reaches exactly what `r` reaches, and no edge of `s` is covered. -/
structure IsReduction (r s : α → α → Prop) : Prop where
  reach : ∀ a b, TransGen s a b ↔ TransGen r a b
  irredundant : ∀ a b, s a b → ¬ Covered s a b

/-- `r` without the covered edges that leave a node of `l`. -/
def pruneOn (r : α → α → Prop) (l : List α) (a b : α) : Prop :=
  r a b ∧ (a ∈ l → ¬ Covered r a b)

/-- An acyclic relation has no edge from a node to itself. -/
theorem Acyclic.irrefl {r : α → α → Prop} (hr : Acyclic r) (a : α) : ¬ r a a :=
  fun h ↦ hr a (.single h)

/-- Acyclicity only depends on reachability. -/
theorem Acyclic.of_reach {r s : α → α → Prop} (hr : Acyclic r)
    (h : ∀ a b, TransGen s a b → TransGen r a b) : Acyclic s :=
  fun a ha ↦ hr a (h a a ha)

/-- A rank that falls along every edge makes a relation acyclic. -/
theorem Acyclic.of_rank {r : α → α → Prop} (rank : α → Nat)
    (h : ∀ a b, r a b → rank b < rank a) : Acyclic r := by
  have hlt : ∀ a b, TransGen r a b → rank b < rank a := by
    intro a b hab
    induction hab with
    | single hab => exact h _ _ hab
    | tail _ hbc ih => exact (h _ _ hbc).trans ih
  exact fun a ha ↦ Nat.lt_irrefl _ (hlt a a ha)

/-- Coverage only depends on the successors of the source and on reachability. -/
theorem covered_congr {r s : α → α → Prop} {a : α} (b : α) (hs : ∀ c, s a c ↔ r a c)
    (hr : ∀ a b, TransGen s a b ↔ TransGen r a b) : Covered s a b ↔ Covered r a b := by
  simp only [Covered, hs, hr]

/-- Coverage is monotone in the relation. -/
theorem Covered.mono {r s : α → α → Prop} {a b : α} (hs : ∀ a c, s a c → r a c)
    (h : Covered s a b) : Covered r a b := by
  obtain ⟨c, hc, hac, hcb⟩ := h
  exact ⟨c, hc, hs a c hac, TransGen.mono hs _ _ hcb⟩

/-- Pruning no node keeps the relation. -/
theorem pruneOn_nil (r : α → α → Prop) (a b : α) : pruneOn r [] a b ↔ r a b := by
  simp [pruneOn]

/-- Pruning only deletes edges. -/
theorem pruneOn_le {r : α → α → Prop} {l : List α} {a b : α} (h : pruneOn r l a b) : r a b := h.1

/-- The edges of a node that is not pruned all stay. -/
theorem pruneOn_of_notMem {r : α → α → Prop} {l : List α} {a : α} (ha : a ∉ l) (b : α) :
    pruneOn r l a b ↔ r a b := by
  simp [pruneOn, ha]

-- A path between two successors of `p` never returns to `p`, so pruning `p` keeps it.
private theorem path_avoids {r s : α → α → Prop} (hr : Acyclic r) {p : α}
    (hs : ∀ a b, a ≠ p → r a b → s a b) {c b : α} (hpc : r p c) (hcb : TransGen r c b) :
    TransGen s c b := by
  induction hcb with
  | single h =>
    refine .single (hs _ _ ?_ h)
    rintro rfl
    exact hr.irrefl _ hpc
  | tail hcd h ih =>
    refine ih.tail (hs _ _ ?_ h)
    rintro rfl
    exact hr _ (.head hpc hcd)

-- Some successor that is not covered itself reaches `b`: reachability is a strict
-- order on the finite set of successors, so the descent to it ends.
private theorem exists_uncovered {r : α → α → Prop} (hr : Acyclic r) {p : α}
    (hf : {c | r p c}.Finite) {b : α} (hpb : r p b) :
    ∃ c, r p c ∧ ¬ Covered r p c ∧ ReflTransGen r c b := by
  have hw : {c | r p c}.WellFoundedOn (TransGen r) := by
    have : IsStrictOrder α (TransGen r) := { irrefl := hr, trans := fun _ _ _ ↦ TransGen.trans }
    exact hf.wellFoundedOn
  apply hw.induction (P := fun b ↦ ∃ c, r p c ∧ ¬ Covered r p c ∧ ReflTransGen r c b) hpb
  intro b hb ih
  by_cases hc : Covered r p b
  · obtain ⟨c, _, hpc, hcb⟩ := hc
    obtain ⟨d, hpd, hd, hdc⟩ := ih c hpc hcb
    exact ⟨d, hpd, hd, hdc.trans hcb.to_reflTransGen⟩
  · exact ⟨b, hb, hc, .refl⟩

/-- Deleting the covered edges of one node keeps reachability. -/
theorem reach_prune {r s : α → α → Prop} (hr : Acyclic r) {p : α} (hf : {c | r p c}.Finite)
    (hs : ∀ a b, s a b ↔ r a b ∧ (a = p → ¬ Covered r a b)) (a b : α) :
    TransGen s a b ↔ TransGen r a b := by
  have hle : ∀ a b, s a b → r a b := fun a b h ↦ ((hs a b).mp h).1
  have hother : ∀ a b, a ≠ p → r a b → s a b :=
    fun a b ha h ↦ (hs a b).mpr ⟨h, fun he ↦ absurd he ha⟩
  -- a deleted edge is replaced by an uncovered one followed by a path that avoids `p`
  have hedge : ∀ a b, r a b → TransGen s a b := by
    intro a b hab
    by_cases ha : a = p
    · subst ha
      obtain ⟨c, hac, hc, hcb⟩ := exists_uncovered hr hf hab
      have hkept : s a c := (hs a c).mpr ⟨hac, fun _ ↦ hc⟩
      rcases reflTransGen_iff_eq_or_transGen.mp hcb with rfl | hcb
      · exact .single hkept
      · exact .head hkept (path_avoids hr hother hac hcb)
    · exact .single (hother a b ha hab)
  exact ⟨TransGen.mono hle _ _, TransGen.closed hedge _ _⟩

/-- Pruning any list of nodes keeps reachability. -/
theorem reach_pruneOn {r : α → α → Prop} (hr : Acyclic r) (hf : ∀ p, {c | r p c}.Finite)
    (l : List α) (a b : α) : TransGen (pruneOn r l) a b ↔ TransGen r a b := by
  induction l generalizing a b with
  | nil =>
    have he : pruneOn r [] = r := by
      funext a b
      exact propext (pruneOn_nil r a b)
    rw [he]
  | cons p l ih =>
    by_cases hp : p ∈ l
    · have he : pruneOn r (p :: l) = pruneOn r l := by
        funext a b
        simp only [pruneOn, List.mem_cons]
        grind
      rw [he]
      exact ih a b
    · rw [← ih a b]
      apply reach_prune (p := p)
      · exact hr.of_reach fun a b h ↦ (ih a b).mp h
      · exact (hf p).subset fun c hc ↦ pruneOn_le hc
      · intro a b
        have hc : a = p → (Covered (pruneOn r l) a b ↔ Covered r a b) := by
          rintro rfl
          exact covered_congr b (pruneOn_of_notMem hp) ih
        simp only [pruneOn, List.mem_cons]
        grind

/-- Coverage of the edges of a node does not depend on which other nodes were pruned. -/
theorem covered_pruneOn {r : α → α → Prop} (hr : Acyclic r) (hf : ∀ p, {c | r p c}.Finite)
    {l : List α} {p : α} (hp : p ∉ l) (b : α) : Covered (pruneOn r l) p b ↔ Covered r p b :=
  covered_congr b (pruneOn_of_notMem hp) (reach_pruneOn hr hf l)

/-- Pruning every node that has an edge yields a transitive reduction. -/
theorem isReduction_pruneOn {r : α → α → Prop} (hr : Acyclic r) (hf : ∀ p, {c | r p c}.Finite)
    {l : List α} (hl : ∀ a b, r a b → a ∈ l) : IsReduction r (pruneOn r l) where
  reach := reach_pruneOn hr hf l
  irredundant a b hab hc := hab.2 (hl a b hab.1) (hc.mono fun _ _ ↦ pruneOn_le)

-- One half of uniqueness: every edge of one reduction is an edge of the other.
private theorem IsReduction.edge {r s t : α → α → Prop} (hr : Acyclic r) (hs : IsReduction r s)
    (ht : IsReduction r t) {a b : α} (hab : s a b) : t a b := by
  have hta : TransGen t a b := (ht.reach a b).mpr ((hs.reach a b).mp (.single hab))
  obtain ⟨c, hac, hcb⟩ := TransGen.head'_iff.mp hta
  rcases reflTransGen_iff_eq_or_transGen.mp hcb with rfl | hcb
  · exact hac
  · -- the detour of `t` through `c` gives a detour of `s`, which has none
    have hsac : TransGen s a c := (hs.reach a c).mpr ((ht.reach a c).mp (.single hac))
    have hscb : TransGen s c b := (hs.reach c b).mpr ((ht.reach c b).mp hcb)
    obtain ⟨d, had, hdc⟩ := TransGen.head'_iff.mp hsac
    have hdb : TransGen s d b := TransGen.trans_right hdc hscb
    have hne : d ≠ b := by
      rintro rfl
      exact hr d ((hs.reach d d).mp hdb)
    exact absurd ⟨d, hne, had, hdb⟩ (hs.irredundant a b hab)

/-- An acyclic relation has at most one transitive reduction. -/
theorem IsReduction.unique {r s t : α → α → Prop} (hr : Acyclic r) (hs : IsReduction r s)
    (ht : IsReduction r t) : s = t := by
  funext a b
  exact propext ⟨hs.edge hr ht, ht.edge hr hs⟩

end MotionPie.Graph
