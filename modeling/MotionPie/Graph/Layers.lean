import Mathlib.Logic.Function.Basic
import MotionPie.Graph.Reduction

/-!
# Acyclic relations in layers

A set of nodes that no edge leaves splits every cycle: it stays inside the set or never
meets it. So a relation is acyclic as soon as it is acyclic on the two sides. Renaming the
nodes changes nothing. Node types and relations are arbitrary.
-/

namespace MotionPie.Graph

open Relation

universe u v

variable {α : Type u} {β : Type v} {r s : α → α → Prop} {S : Set α}

/-- No edge leaves `S`. -/
def Closed (r : α → α → Prop) (S : Set α) : Prop := ∀ a b, r a b → a ∈ S → b ∈ S

/-- No path leaves a closed set. -/
theorem Closed.reach (hS : Closed r S) {a b : α} (hab : TransGen r a b) (ha : a ∈ S) : b ∈ S := by
  induction hab with
  | single hab => exact hS _ _ hab ha
  | tail _ hbc ih => exact hS _ _ hbc ih

/-- Fewer edges make no cycle. -/
theorem Acyclic.mono (hr : Acyclic r) (h : ∀ a b, s a b → r a b) : Acyclic s :=
  hr.of_reach fun _ _ hab ↦ TransGen.mono h _ _ hab

-- A path that ends outside a closed set never meets it.
private theorem path_outside (hS : Closed r S) {a b : α} (hab : TransGen r a b) (hb : b ∉ S) :
    TransGen (fun a b ↦ b ∉ S ∧ r a b) a b := by
  induction hab with
  | single hab => exact .single ⟨hb, hab⟩
  | tail _ hbc ih =>
    have hmid : _ ∉ S := fun hmid ↦ hb (hS _ _ hbc hmid)
    exact (ih hmid).tail ⟨hb, hbc⟩

-- A path that starts in a closed set stays there.
private theorem path_inside (hS : Closed r S) {a b : α} (hab : TransGen r a b) (ha : a ∈ S) :
    TransGen (fun a b ↦ a ∈ S ∧ r a b) a b := by
  induction hab with
  | single hab => exact .single ⟨ha, hab⟩
  | tail hab hbc ih => exact ih.tail ⟨hS.reach hab ha, hbc⟩

/-- A cycle lies on one side of a closed set. -/
theorem acyclic_iff_of_closed (hS : Closed r S) :
    Acyclic r ↔ Acyclic (fun a b ↦ b ∉ S ∧ r a b) ∧ Acyclic (fun a b ↦ a ∈ S ∧ r a b) := by
  constructor
  · intro hr
    exact ⟨hr.mono fun _ _ h ↦ h.2, hr.mono fun _ _ h ↦ h.2⟩
  · rintro ⟨hout, hin⟩ a ha
    by_cases hmem : a ∈ S
    · exact hin a (path_inside hS ha hmem)
    · exact hout a (path_outside hS ha hmem)

-- A path between renamed nodes is the image of a path.
private theorem path_map {f : α → β} (hf : Function.Injective f) {c d : β}
    (hcd : TransGen (Relation.Map r f f) c d) : ∃ a b, TransGen r a b ∧ f a = c ∧ f b = d := by
  induction hcd with
  | single h =>
    obtain ⟨a, b, hab, ha, hb⟩ := h
    exact ⟨a, b, .single hab, ha, hb⟩
  | tail _ h ih =>
    obtain ⟨a, b, hab, ha, rfl⟩ := ih
    obtain ⟨b', c, hbc, hb, hc⟩ := h
    obtain rfl : b' = b := hf hb
    exact ⟨a, c, hab.tail hbc, ha, hc⟩

/-- Renaming the nodes makes and breaks no cycle. -/
theorem acyclic_map_iff {f : α → β} (hf : Function.Injective f) :
    Acyclic (Relation.Map r f f) ↔ Acyclic r := by
  constructor
  · intro h a ha
    exact h (f a) (TransGen.lift f (fun a b hab ↦ ⟨a, b, hab, rfl, rfl⟩) _ _ ha)
  · intro h c hc
    obtain ⟨a, b, hab, ha, hb⟩ := path_map hf hc
    obtain rfl : a = b := hf (ha.trans hb.symm)
    exact h a hab

end MotionPie.Graph
