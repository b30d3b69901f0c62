import Mathlib.Data.List.Induction
import Mathlib.Data.Set.Insert
import Mathlib.Logic.Function.Basic
import Mathlib.Logic.Relation

/-!
# The order in which a search leaves edges

A depth-first search with a memory goes along the edges of every node that it meets, and leaves an
edge when it has come back over it. A mark that is passed back over each edge as it is left comes to
a node along the paths whose edges are left from the last to the first. Nodes are arbitrary.
-/

namespace MotionPie.Graph

universe u

variable {α : Type u}

/-- The edge of a call that comes from a node. -/
def edge (p : Option α) (a : α) : List (α × α) := p.toList.map fun q ↦ (q, a)

/-- The search that takes `calls` when the nodes of `D` have been met before leaves the edges `F`,
in this order, and has then met the nodes of the last argument. A call may come from a node; only then
its edge counts. -/
inductive Search (next : α → List (Option α × α)) :
    Set α → List (Option α × α) → List (α × α) → Set α → Prop
  | nil (D : Set α) : Search next D [] [] D
  | again {D D' : Set α} {p : Option α} {a : α} {calls : List (Option α × α)} {F : List (α × α)}
      (ha : a ∈ D) (h : Search next D calls F D') :
      Search next D ((p, a) :: calls) (edge p a ++ F) D'
  | first {D D₁ D₂ : Set α} {p : Option α} {a : α} {calls : List (Option α × α)}
      {F F' : List (α × α)} (ha : a ∉ D) (hnext : Search next (insert a D) (next a) F D₁)
      (h : Search next D₁ calls F' D₂) :
      Search next D ((p, a) :: calls) (F ++ edge p a ++ F') D₂

/-- A mark is passed back over an edge. -/
def passBack [DecidableEq α] (v : α → Bool) (e : α × α) : α → Bool :=
  Function.update v e.1 (v e.1 || v e.2)

/-- The edges lead from `a` to `b`. -/
def IsPath : α → List (α × α) → α → Prop
  | a, [], b => a = b
  | a, e :: es, b => e.1 = a ∧ IsPath e.2 es b

variable {next : α → List (Option α × α)} {D D' D₁ D₂ : Set α} {calls calls' : List (Option α × α)}
  {F F' : List (α × α)}

namespace Search

/-- The search forgets no node. -/
theorem subset (h : Search next D calls F D') : D ⊆ D' := by
  induction h with
  | nil => exact subset_rfl
  | again _ _ ih => exact ih
  | first _ _ _ ihnext ih => exact (Set.subset_insert _ _).trans (ihnext.trans ih)

/-- The nodes of the calls have been met behind the search. -/
theorem mem_of_call (h : Search next D calls F D') {p : Option α} {a : α} (ha : (p, a) ∈ calls) :
    a ∈ D' := by
  induction h with
  | nil => cases ha
  | again hmem h ih =>
    rcases List.mem_cons.mp ha with heq | ha
    · obtain ⟨rfl, rfl⟩ := Prod.mk.inj heq
      exact h.subset hmem
    · exact ih ha
  | first _ hnext h _ ih =>
    rcases List.mem_cons.mp ha with heq | ha
    · obtain ⟨rfl, rfl⟩ := Prod.mk.inj heq
      exact h.subset (hnext.subset (Set.mem_insert _ _))
    · exact ih ha

/-- The search is determined by its calls. -/
theorem unique (h : Search next D calls F D₁) (h' : Search next D calls F' D₂) :
    F = F' ∧ D₁ = D₂ := by
  induction h generalizing F' D₂ with
  | nil =>
    cases h'
    exact ⟨rfl, rfl⟩
  | again ha _ ih =>
    cases h' with
    | again _ h' =>
      obtain ⟨rfl, rfl⟩ := ih h'
      exact ⟨rfl, rfl⟩
    | first hb _ _ => exact absurd ha hb
  | first ha _ _ ihnext ih =>
    cases h' with
    | again hb _ => exact absurd hb ha
    | first _ hnext' h' =>
      obtain ⟨rfl, rfl⟩ := ihnext hnext'
      obtain ⟨rfl, rfl⟩ := ih h'
      exact ⟨rfl, rfl⟩

/-- A search in two parts. -/
theorem append (h : Search next D calls F D₁) (h' : Search next D₁ calls' F' D₂) :
    Search next D (calls ++ calls') (F ++ F') D₂ := by
  induction h with
  | nil => exact h'
  | again ha _ ih =>
    rw [List.append_assoc]
    exact .again ha (ih h')
  | first ha hnext _ _ ih =>
    rw [List.append_assoc]
    exact .first ha hnext (ih h')

/-- The edges are those of the calls and of the nodes. -/
theorem mem_calls (h : Search next D calls F D') {e : α × α} (he : e ∈ F) :
    (some e.1, e.2) ∈ calls ∨ ∃ a, (some e.1, e.2) ∈ next a := by
  have hedge : ∀ {p : Option α} {a : α}, e ∈ edge p a → (some e.1, e.2) = (p, a) := by
    intro p a he
    obtain ⟨q, hq, rfl⟩ := List.mem_map.mp he
    rw [Option.mem_toList.mp hq]
  induction h with
  | nil => cases he
  | again _ _ ih =>
    rcases List.mem_append.mp he with he | he
    · exact .inl (List.mem_cons.mpr (.inl (hedge he)))
    · exact (ih he).imp_left (List.mem_cons_of_mem _)
  | first _ _ _ ihnext ih =>
    rcases List.mem_append.mp he with he | he
    · rcases List.mem_append.mp he with he | he
      · exact .inr ((ihnext he).elim (fun h ↦ ⟨_, h⟩) id)
      · exact .inl (List.mem_cons.mpr (.inl (hedge he)))
    · exact (ih he).imp_left (List.mem_cons_of_mem _)

end Search

/-! ### Marks -/

/-- A path is one for every relation that holds along its edges. -/
theorem IsPath.reflTransGen {r : α → α → Prop} {es : List (α × α)} {a b : α} (h : IsPath a es b)
    (hes : ∀ e ∈ es, r e.1 e.2) : Relation.ReflTransGen r a b := by
  induction es generalizing a with
  | nil => exact h ▸ .refl
  | cons e es ih =>
    obtain ⟨rfl, h⟩ := h
    rw [List.forall_mem_cons] at hes
    exact .head hes.1 (ih h hes.2)

/-- A node is marked behind the search if and only if a path leads from it to one that was marked
before, and the edges of the path are left from the last to the first. -/
theorem foldl_passBack_iff [DecidableEq α] (F : List (α × α)) (v : α → Bool) (a : α) :
    F.foldl passBack v a = true ↔
      ∃ es b, IsPath a es b ∧ es.reverse.Sublist F ∧ v b = true := by
  induction F using List.reverseRecOn generalizing a with
  | nil =>
    constructor
    · exact fun ha ↦ ⟨[], a, rfl, .slnil, ha⟩
    · rintro ⟨es, b, hpath, hsub, hb⟩
      obtain rfl := List.reverse_eq_nil_iff.mp (List.sublist_nil.mp hsub)
      exact hpath ▸ hb
  | append_singleton F e ih =>
    rw [List.foldl_append, List.foldl_cons, List.foldl_nil, passBack]
    constructor
    · intro ha
      by_cases hae : a = e.1
      · subst hae
        rw [Function.update_self, Bool.or_eq_true] at ha
        rcases ha with ha | ha
        · obtain ⟨es, b, hpath, hsub, hb⟩ := (ih e.1).mp ha
          exact ⟨es, b, hpath, hsub.trans (List.sublist_append_left _ _), hb⟩
        · obtain ⟨es, b, hpath, hsub, hb⟩ := (ih e.2).mp ha
          refine ⟨e :: es, b, ⟨rfl, hpath⟩, ?_, hb⟩
          rw [List.reverse_cons]
          exact hsub.append_right _
      · rw [Function.update_of_ne hae] at ha
        obtain ⟨es, b, hpath, hsub, hb⟩ := (ih a).mp ha
        exact ⟨es, b, hpath, hsub.trans (List.sublist_append_left _ _), hb⟩
    · rintro ⟨es, b, hpath, hsub, hb⟩
      have hmono : F.foldl passBack v a = true →
          Function.update (F.foldl passBack v) e.1 (F.foldl passBack v e.1 || F.foldl passBack v e.2) a =
            true := by
        intro ha
        by_cases hae : a = e.1
        · subst hae
          rw [Function.update_self, ha]
          rfl
        · rw [Function.update_of_ne hae]
          exact ha
      obtain ⟨us, ws, hsplit, hus, hws⟩ := List.sublist_append_iff.mp hsub
      rcases List.sublist_cons_iff.mp hws with hws | ⟨rest, rfl, hrest⟩
      · rw [List.sublist_nil.mp hws, List.append_nil] at hsplit
        exact hmono ((ih a).mpr ⟨es, b, hpath, hsplit ▸ hus, hb⟩)
      · rw [List.sublist_nil.mp hrest] at hsplit
        obtain rfl : es = e :: us.reverse := by
          rw [← List.reverse_reverse es, hsplit, List.reverse_append, List.reverse_singleton,
            List.singleton_append]
        obtain ⟨rfl, hpath⟩ := hpath
        have hbehind : F.foldl passBack v e.2 = true :=
          (ih e.2).mpr ⟨us.reverse, b, hpath, by rwa [List.reverse_reverse], hb⟩
        rw [Function.update_self, hbehind, Bool.or_true]

end MotionPie.Graph
