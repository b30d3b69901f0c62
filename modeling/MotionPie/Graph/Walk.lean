import Mathlib.Data.Finset.Card
import Mathlib.Data.List.Count
import Mathlib.Data.List.Nodup
import Mathlib.Data.Set.Insert

/-!
# Depth-first walks with a memory

A walk takes calls one after the other. A call on a node that was met before is over at once; any
other call meets its node and goes on with the calls that the node makes. A call carries a label,
so what a node passes on depends on the call that met it first. Nodes and labels are arbitrary.
-/

namespace MotionPie.Graph

universe u v

variable {α : Type u} {κ : Type v}

/-- The nodes that some calls have met. -/
def met (E : List (α × κ)) : Set α := {a | ∃ l, (a, l) ∈ E}

/-- The walk that takes `calls` when the nodes of `D` have been met before: `E` are the calls that
met a node, in their order. -/
inductive Walk (next : α → κ → List (α × κ)) : Set α → List (α × κ) → List (α × κ) → Prop
  | nil (D : Set α) : Walk next D [] []
  | again {D : Set α} {a : α} {l : κ} {calls E : List (α × κ)} (ha : a ∈ D)
      (h : Walk next D calls E) : Walk next D ((a, l) :: calls) E
  | first {D : Set α} {a : α} {l : κ} {calls E E' : List (α × κ)} (ha : a ∉ D)
      (hnext : Walk next (insert a D) (next a l) E)
      (h : Walk next (insert a D ∪ met E) calls E') :
      Walk next D ((a, l) :: calls) ((a, l) :: E ++ E')

/-- All calls of a walk. -/
def made (next : α → κ → List (α × κ)) (calls E : List (α × κ)) : List (α × κ) :=
  calls ++ E.flatMap fun e ↦ next e.1 e.2

variable {next : α → κ → List (α × κ)} {D : Set α} {calls calls' E E' : List (α × κ)}

/-- No call has met a node. -/
@[simp] theorem met_nil : met ([] : List (α × κ)) = ∅ := by
  simp [met]

/-- The nodes of a call and of others. -/
@[simp] theorem met_cons (e : α × κ) (E : List (α × κ)) : met (e :: E) = insert e.1 (met E) := by
  ext a
  simp only [met, List.mem_cons, Set.mem_ofPred_eq, Set.mem_insert_iff, Prod.ext_iff]
  constructor
  · rintro ⟨l, ⟨h, -⟩ | h⟩
    · exact .inl h
    · exact .inr ⟨l, h⟩
  · rintro (h | ⟨l, h⟩)
    · exact ⟨e.2, .inl ⟨h, rfl⟩⟩
    · exact ⟨l, .inr h⟩

/-- The nodes of two lists of calls. -/
@[simp] theorem met_append (E E' : List (α × κ)) : met (E ++ E') = met E ∪ met E' := by
  induction E with
  | nil => simp
  | cons e E ih => rw [List.cons_append, met_cons, met_cons, ih, Set.insert_union]

/-- The nodes are the first components of the calls. -/
theorem mem_met_iff {a : α} : a ∈ met E ↔ a ∈ E.map Prod.fst := by
  simp [met]

/-- The node of a call. -/
theorem mem_met {e : α × κ} (he : e ∈ E) : e.1 ∈ met E := ⟨e.2, he⟩

/-- The calls of a call and of others. -/
theorem mem_made_cons {c e : α × κ} :
    c ∈ made next (e :: calls) E ↔ c = e ∨ c ∈ made next calls E := by
  simp [made]

/-- The calls of a walk in two parts. -/
theorem mem_made_append {c : α × κ} :
    c ∈ made next (calls ++ calls') (E ++ E') ↔
      c ∈ made next calls E ∨ c ∈ made next calls' E' := by
  simp only [made, List.flatMap_append, List.mem_append]
  tauto

/-- The calls behind the first one. -/
theorem mem_made_first {c : α × κ} {a : α} {l : κ} :
    c ∈ made next ((a, l) :: calls) ((a, l) :: E ++ E') ↔
      c = (a, l) ∨ c ∈ made next (next a l) E ∨ c ∈ made next calls E' := by
  simp only [made, List.cons_append, List.flatMap_cons, List.flatMap_append, List.mem_cons,
    List.mem_append]
  tauto

namespace Walk

/-- A walk meets no node again. -/
theorem notMem (h : Walk next D calls E) : ∀ e ∈ E, e.1 ∉ D := by
  induction h with
  | nil => simp
  | again _ _ ih => exact ih
  | first ha _ _ ihnext ih =>
    intro e he
    rcases List.mem_cons.mp he with rfl | he
    · exact ha
    · rcases List.mem_append.mp he with he | he
      · exact fun hmem ↦ ihnext e he (.inr hmem)
      · exact fun hmem ↦ ih e he (.inl (.inr hmem))

/-- A walk meets no node twice. -/
theorem nodup (h : Walk next D calls E) : (E.map Prod.fst).Nodup := by
  induction h with
  | nil => exact List.nodup_nil
  | again _ _ ih => exact ih
  | @first D a l calls E E' ha hnext h ihnext ih =>
    rw [List.cons_append, List.map_cons, List.nodup_cons, List.map_append, List.nodup_append]
    have hsecond : ∀ e ∈ E', e.1 ∉ insert a D ∪ met E := h.notMem
    refine ⟨?_, ihnext, ih, ?_⟩
    · intro hmem
      rcases List.mem_append.mp hmem with hmem | hmem
      · obtain ⟨e, he, heq⟩ := List.mem_map.mp hmem
        exact hnext.notMem e he (.inl heq)
      · obtain ⟨e, he, heq⟩ := List.mem_map.mp hmem
        exact hsecond e he (.inl (.inl heq))
    · intro b hb c hc heq
      obtain ⟨e, he, rfl⟩ := List.mem_map.mp hb
      obtain ⟨f, hf, rfl⟩ := List.mem_map.mp hc
      exact hsecond f hf (.inr (heq ▸ mem_met he))

/-- Behind a walk the nodes of all its calls have been met. -/
theorem closed (h : Walk next D calls E) : ∀ c ∈ made next calls E, c.1 ∈ D ∪ met E := by
  induction h with
  | nil => simp [made]
  | again ha _ ih =>
    intro c hc
    rcases mem_made_cons.mp hc with rfl | hc
    · exact .inl ha
    · exact ih c hc
  | first _ _ _ ihnext ih =>
    intro c hc
    rw [List.cons_append, met_cons, met_append]
    rcases mem_made_first.mp hc with rfl | hc | hc
    · exact .inr (.inl rfl)
    · rcases ihnext c hc with (hc | hc) | hc
      · exact .inr (.inl hc)
      · exact .inl hc
      · exact .inr (.inr (.inl hc))
    · rcases ih c hc with ((hc | hc) | hc) | hc
      · exact .inr (.inl hc)
      · exact .inl hc
      · exact .inr (.inr (.inl hc))
      · exact .inr (.inr (.inr hc))

/-- The induction rule: what holds of the first calls and is passed on by every call that meets a
node holds of all calls that meet one. -/
theorem induct (P : α → κ → Prop) (h : Walk next D calls E) (hcalls : ∀ c ∈ calls, P c.1 c.2)
    (hnext : ∀ a l, P a l → ∀ c ∈ next a l, P c.1 c.2) : ∀ e ∈ E, P e.1 e.2 := by
  induction h with
  | nil => simp
  | again _ _ ih => exact ih fun c hc ↦ hcalls c (List.mem_cons_of_mem _ hc)
  | first _ _ _ ihnext ih =>
    have hfirst := hcalls _ List.mem_cons_self
    intro e he
    rcases List.mem_cons.mp he with rfl | he
    · exact hfirst
    · rcases List.mem_append.mp he with he | he
      · exact ihnext (hnext _ _ hfirst) e he
      · exact ih (fun c hc ↦ hcalls c (List.mem_cons_of_mem _ hc)) e he

/-- A walk is determined by its calls. -/
theorem unique (h : Walk next D calls E) (h' : Walk next D calls E') : E = E' := by
  induction h generalizing E' with
  | nil =>
    cases h'
    rfl
  | again ha _ ih =>
    cases h' with
    | again _ h' => exact ih h'
    | first hb _ _ => exact absurd ha hb
  | first ha _ _ ihnext ih =>
    cases h' with
    | again hb _ => exact absurd hb ha
    | first _ hnext' h' =>
      obtain rfl := ihnext hnext'
      obtain rfl := ih h'
      rfl

/-- A walk in two parts. -/
theorem append (h : Walk next D calls E) (h' : Walk next (D ∪ met E) calls' E') :
    Walk next D (calls ++ calls') (E ++ E') := by
  induction h with
  | nil D => simpa using h'
  | again ha _ ih => exact .again ha (ih h')
  | @first D a l calls E₁ E₂ ha hnext _ _ ih =>
    rw [List.cons_append, List.append_assoc, ← List.cons_append]
    refine .first ha hnext (ih ?_)
    rw [List.cons_append, met_cons, met_append] at h'
    have hset : insert a D ∪ met E₁ ∪ met E₂ = D ∪ insert a (met E₁ ∪ met E₂) := by
      ext b
      simp only [Set.mem_union, Set.mem_insert_iff]
      tauto
    rw [hset]
    exact h'

/-- Only what the calls that meet a node make counts. -/
theorem congr {next' : α → κ → List (α × κ)} (h : Walk next D calls E)
    (hnext : ∀ e ∈ E, next e.1 e.2 = next' e.1 e.2) : Walk next' D calls E := by
  induction h with
  | nil => exact .nil _
  | again ha _ ih => exact .again ha (ih hnext)
  | first ha _ _ ihnext ih =>
    rw [List.cons_append, List.forall_mem_cons, List.forall_mem_append] at hnext
    have hbelow := ihnext hnext.2.1
    rw [hnext.1] at hbelow
    exact .first ha hbelow (ih hnext.2.2)

/-- There is a walk when the calls lead to finitely many nodes. -/
theorem exists_of_finite {U : Finset α} (hU : ∀ a ∈ U, ∀ l, ∀ c ∈ next a l, c.1 ∈ U)
    (hcalls : ∀ c ∈ calls, c.1 ∈ U) : ∃ E, Walk next D calls E := by
  classical
  -- The measure is the number of nodes that have not been met.
  induction hn : (U.filter (· ∉ D)).card using Nat.strong_induction_on generalizing D calls with
  | _ n ihn =>
    subst hn
    induction calls generalizing D with
    | nil => exact ⟨[], .nil D⟩
    | cons c calls ih =>
      obtain ⟨a, l⟩ := c
      rw [List.forall_mem_cons] at hcalls
      by_cases ha : a ∈ D
      · obtain ⟨E, hE⟩ := ih hcalls.2 ihn
        exact ⟨E, .again ha hE⟩
      · have hless : ∀ S : Set α, insert a D ⊆ S →
            (U.filter (· ∉ S)).card < (U.filter (· ∉ D)).card := by
          intro S hS
          refine Finset.card_lt_card (Finset.ssubset_iff_of_subset ?_ |>.mpr ⟨a, ?_, ?_⟩)
          · intro b hb
            rw [Finset.mem_filter] at hb ⊢
            exact ⟨hb.1, fun hmem ↦ hb.2 (hS (.inr hmem))⟩
          · exact Finset.mem_filter.mpr ⟨hcalls.1, ha⟩
          · exact fun hmem ↦ (Finset.mem_filter.mp hmem).2 (hS (.inl rfl))
        obtain ⟨E, hE⟩ := ihn _ (hless _ subset_rfl) (hU a hcalls.1 l) rfl
        obtain ⟨E', hE'⟩ :=
          ihn _ (hless (insert a D ∪ met E) Set.subset_union_left) hcalls.2 rfl
        exact ⟨(a, l) :: E ++ E', .first ha hE hE'⟩

end Walk

/-! ### Listed edges -/

section Edges

variable {ι : Type u} {β : Type v} [DecidableEq α] [DecidableEq β] {key : ι → α}
  {f : ι → List β} {L : List ι}

/-- No edge of a node is listed when the node is not. -/
theorem count_edges_of_notMem {p : α} (hp : p ∉ L.map key) (d : β) :
    (L.flatMap fun i ↦ (f i).map fun d ↦ (key i, d)).count (p, d) = 0 := by
  rw [List.count_eq_zero, List.mem_flatMap]
  rintro ⟨i, hi, hmem⟩
  obtain ⟨d', -, heq⟩ := List.mem_map.mp hmem
  exact hp (List.mem_map.mpr ⟨i, hi, (Prod.mk.inj heq).1⟩)

/-- The edges of a node are listed as often as its own list has them, when it is listed once. -/
theorem count_edges_of_mem (hL : (L.map key).Nodup) {i : ι} (hi : i ∈ L) (d : β) :
    (L.flatMap fun i ↦ (f i).map fun d ↦ (key i, d)).count (key i, d) = (f i).count d := by
  induction L with
  | nil => cases hi
  | cons j L ih =>
    rw [List.map_cons, List.nodup_cons] at hL
    rw [List.flatMap_cons, List.count_append]
    rcases List.mem_cons.mp hi with rfl | hi
    · have hinj : Function.Injective fun d : β ↦ (key i, d) := fun a b h ↦ (Prod.mk.inj h).2
      rw [count_edges_of_notMem hL.1, List.count_map_of_injective _ _ hinj, Nat.add_zero]
    · have hfirst : ((f j).map fun d ↦ (key j, d)).count (key i, d) = 0 := by
        rw [List.count_eq_zero]
        intro hmem
        obtain ⟨d', -, heq⟩ := List.mem_map.mp hmem
        exact hL.1 (List.mem_map.mpr ⟨i, hi, (Prod.mk.inj heq).1.symm⟩)
      rw [hfirst, ih hL.2 hi, Nat.zero_add]

end Edges

end MotionPie.Graph
