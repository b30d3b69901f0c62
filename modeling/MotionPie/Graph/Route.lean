import Mathlib.Data.List.Lex
import MotionPie.Graph.Walk

/-!
# The first way to a node

A route leads from some calls along distinct nodes to a call; it is given by the place that each
call of it has among the calls that may come next. Of two routes, the one that takes the earlier
call where they part comes first. A walk comes to every node by the first route that leads there,
if the nodes that follow a node are the same for all labels.
-/

namespace MotionPie.Graph

universe u v

variable {α : Type u} {κ : Type v}

/-- The places `is` lead from `calls` along distinct nodes outside `D` to a call. -/
inductive Route (next : α → κ → List (α × κ)) :
    Set α → List (α × κ) → List Nat → α × κ → Prop
  | here {D : Set α} {calls : List (α × κ)} {i : Nat} {e : α × κ} (hi : calls[i]? = some e)
      (he : e.1 ∉ D) : Route next D calls [i] e
  | there {D : Set α} {calls : List (α × κ)} {i : Nat} {is : List Nat} {e f : α × κ}
      (hi : calls[i]? = some e) (he : e.1 ∉ D)
      (h : Route next (insert e.1 D) (next e.1 e.2) is f) : Route next D calls (i :: is) f

/-- The first of the routes to a node. -/
structure FirstRoute (next : α → κ → List (α × κ)) (D : Set α) (calls : List (α × κ))
    (is : List Nat) (e : α × κ) : Prop where
  route : Route next D calls is e
  first : ∀ js l, Route next D calls js (e.1, l) → ¬ List.Lex (· < ·) js is

/-- The nodes that follow a node are the same for all labels. -/
def SameNodes (next : α → κ → List (α × κ)) : Prop :=
  ∀ a l l', (next a l).map Prod.fst = (next a l').map Prod.fst

variable {next : α → κ → List (α × κ)} {D D' X : Set α} {calls E : List (α × κ)}
  {i : Nat} {is js : List Nat} {c e f : α × κ}

namespace Route

/-- A route has a first place. -/
theorem ne_nil (h : Route next D calls is e) : is ≠ [] := by
  cases h <;> simp

/-- A route ends outside `D`. -/
theorem notMem (h : Route next D calls is e) : e.1 ∉ D := by
  induction h with
  | here _ he => exact he
  | there _ _ _ ih => exact fun hmem ↦ ih (.inr hmem)

/-- A route is determined by its places. -/
theorem unique (h : Route next D calls is e) (h' : Route next D calls is f) : e = f := by
  induction h with
  | here hi _ =>
    cases h' with
    | here hi' _ => exact Option.some.inj (hi.symm.trans hi')
    | there _ _ h' => exact absurd rfl h'.ne_nil
  | there hi _ h ih =>
    cases h' with
    | here _ _ => exact absurd rfl h.ne_nil
    | there hi' _ h' =>
      obtain rfl := Option.some.inj (hi.symm.trans hi')
      exact ih h'

/-- What keeps out of more nodes is a route as well. -/
theorem mono (hD : D' ⊆ D) (h : Route next D calls is e) : Route next D' calls is e := by
  induction h generalizing D' with
  | here hi he => exact .here hi fun hmem ↦ he (hD hmem)
  | there hi he _ ih => exact .there hi (fun hmem ↦ he (hD hmem)) (ih (Set.insert_subset_insert hD))

/-- A route does not leave a set that nothing leads out of. -/
theorem mem (hX : ∀ a ∈ X, ∀ l, ∀ c ∈ next a l, c.1 ∈ D ∪ X) (hD : D ⊆ D')
    (hcalls : ∀ c ∈ calls, c.1 ∈ D ∪ X) (h : Route next D' calls is e) : e.1 ∈ X := by
  induction h with
  | here hi he => exact (hcalls _ (List.mem_of_getElem? hi)).resolve_left fun hmem ↦ he (hD hmem)
  | there hi he _ ih =>
    have hmem := (hcalls _ (List.mem_of_getElem? hi)).resolve_left fun hmem ↦ he (hD hmem)
    exact ih (hD.trans (Set.subset_insert _ _)) (hX _ hmem _)

/-- A route that ends outside such a set keeps out of it. -/
theorem avoid (hX : ∀ a ∈ X, ∀ l, ∀ c ∈ next a l, c.1 ∈ D ∪ X) (hD : D ⊆ D')
    (h : Route next D' calls is e) (he : e.1 ∉ X) : Route next (D' ∪ X) calls is e := by
  induction h with
  | here hi hnot => exact .here hi fun hmem ↦ hmem.elim hnot he
  | @there D' calls i is c e hi hnot h ih =>
    have hinsert : D ⊆ insert c.1 D' := hD.trans (Set.subset_insert _ _)
    have hc : c.1 ∉ X := fun hmem ↦ he (h.mem hX hinsert (hX _ hmem _))
    refine .there hi (fun hmem ↦ hmem.elim hnot hc) ?_
    rw [← Set.insert_union]
    exact ih hinsert he

/-- A route behind the first call. -/
theorem cons_succ (h : Route next D calls (i :: is) e) :
    Route next D (c :: calls) ((i + 1) :: is) e := by
  cases h with
  | here hi he => exact .here hi he
  | there hi he h => exact .there hi he h

/-- A route by the first call, or behind it. -/
theorem cons_cases (h : Route next D (c :: calls) is e) :
    (c.1 ∉ D ∧ ((is = [0] ∧ e = c) ∨
      ∃ js, is = 0 :: js ∧ Route next (insert c.1 D) (next c.1 c.2) js e)) ∨
    ∃ j js, is = (j + 1) :: js ∧ Route next D calls (j :: js) e := by
  cases h with
  | @here _ _ i _ hi he =>
    cases i with
    | zero =>
      obtain rfl : c = e := by simpa using hi
      exact .inl ⟨he, .inl ⟨rfl, rfl⟩⟩
    | succ j => exact .inr ⟨j, [], rfl, .here (by simpa using hi) he⟩
  | @there _ _ i js d _ hi hd h =>
    cases i with
    | zero =>
      obtain rfl : c = d := by simpa using hi
      exact .inl ⟨hd, .inr ⟨js, rfl, h⟩⟩
    | succ j => exact .inr ⟨j, js, rfl, .there (by simpa using hi) hd h⟩

end Route

private theorem lex_succ {j : Nat} (h : List.Lex (· < ·) ((j + 1) :: js) ((i + 1) :: is)) :
    List.Lex (· < ·) (j :: js) (i :: is) := by
  rw [List.cons_lex_cons_iff] at h ⊢
  rcases h with hlt | ⟨heq, hlex⟩
  · exact .inl (Nat.lt_of_succ_lt_succ hlt)
  · exact .inr ⟨Nat.succ.inj heq, hlex⟩

namespace FirstRoute

/-- The first route to a node is only one, and so is the label at its end. -/
theorem unique {a : α} {l l' : κ} (h : FirstRoute next D calls is (a, l))
    (h' : FirstRoute next D calls js (a, l')) : l = l' := by
  obtain rfl : is = js := by
    have htri : Std.Trichotomous (List.Lex ((· < ·) : Nat → Nat → Prop)) := inferInstance
    exact htri.trichotomous _ _ (h'.first _ _ h.route) (h.first _ _ h'.route)
  exact (Prod.mk.inj (h.route.unique h'.route)).2

/-- A first route when the first call is on a node of `D`. -/
theorem again (hc : c.1 ∈ D) (h : FirstRoute next D calls is e) :
    ∃ js, FirstRoute next D (c :: calls) js e := by
  obtain ⟨i, is, rfl⟩ := List.exists_cons_of_ne_nil h.route.ne_nil
  refine ⟨(i + 1) :: is, h.route.cons_succ, ?_⟩
  intro js l hjs hlex
  rcases hjs.cons_cases with ⟨hnot, -⟩ | ⟨j, ks, rfl, hks⟩
  · exact hnot hc
  · exact h.first _ _ hks (lex_succ hlex)

/-- The first route to the node of the first call. -/
theorem head (hc : c.1 ∉ D) : FirstRoute next D (c :: calls) [0] c := by
  refine ⟨.here rfl hc, ?_⟩
  intro js l hjs hlex
  rcases hjs.cons_cases with ⟨-, ⟨rfl, -⟩ | ⟨ks, rfl, -⟩⟩ | ⟨j, ks, rfl, -⟩
  · cases hlex with
    | rel h => exact absurd h (Nat.lt_irrefl 0)
    | cons h => cases h
  · cases hlex with
    | rel h => exact absurd h (Nat.lt_irrefl 0)
    | cons h => cases h
  · cases hlex with
    | rel h => exact absurd h (Nat.not_lt_zero _)

/-- A first route by the first call. -/
theorem below (hc : c.1 ∉ D) (h : FirstRoute next (insert c.1 D) (next c.1 c.2) is e) :
    FirstRoute next D (c :: calls) (0 :: is) e := by
  obtain ⟨a, m⟩ := e
  refine ⟨.there rfl hc h.route, ?_⟩
  intro js l hjs hlex
  rcases hjs.cons_cases with ⟨-, ⟨-, heq⟩ | ⟨ks, rfl, hks⟩⟩ | ⟨j, ks, rfl, -⟩
  · have hnode : a = c.1 := congrArg Prod.fst heq
    exact h.route.notMem (.inl hnode)
  · cases hlex with
    | rel hlt => exact absurd hlt (Nat.lt_irrefl 0)
    | cons hlex => exact h.first _ _ hks hlex
  · cases hlex with
    | rel hlt => exact absurd hlt (Nat.not_lt_zero _)

/-- A first route that keeps out of what the first call leads to. -/
theorem behind (hcX : c.1 ∈ X) (hX : ∀ a ∈ X, ∀ l, ∀ d ∈ next a l, d.1 ∈ D ∪ X)
    (h : FirstRoute next (D ∪ X) calls is e) : ∃ js, FirstRoute next D (c :: calls) js e := by
  obtain ⟨a, m⟩ := e
  have ha : a ∉ X := fun hmem ↦ h.route.notMem (.inr hmem)
  obtain ⟨i, is, rfl⟩ := List.exists_cons_of_ne_nil h.route.ne_nil
  refine ⟨(i + 1) :: is, (h.route.mono Set.subset_union_left).cons_succ, ?_⟩
  intro js l hjs hlex
  rcases hjs.cons_cases with ⟨-, ⟨-, heq⟩ | ⟨ks, -, hks⟩⟩ | ⟨j, ks, rfl, hks⟩
  · have hnode : a = c.1 := congrArg Prod.fst heq
    exact ha (hnode ▸ hcX)
  · exact ha (hks.mem hX (Set.subset_insert _ _) (hX _ hcX _))
  · exact h.first _ _ (hks.avoid hX subset_rfl ha) (lex_succ hlex)

end FirstRoute

/-- Nothing leads out of the nodes that a walk has met, whatever the label. -/
theorem Walk.closed_of_sameNodes (hnext : SameNodes next) (h : Walk next D calls E) :
    ∀ a ∈ met E, ∀ l, ∀ c ∈ next a l, c.1 ∈ D ∪ met E := by
  rintro a ⟨l', hl'⟩ l c hc
  have hmem : c.1 ∈ (next a l').map Prod.fst := by
    rw [hnext a l' l]
    exact List.mem_map_of_mem hc
  obtain ⟨d, hd, heq⟩ := List.mem_map.mp hmem
  rw [← heq]
  exact h.closed d (List.mem_append_right _ (List.mem_flatMap.mpr ⟨_, hl', hd⟩))

/-- A walk meets every node at the end of the first route to it. -/
theorem Walk.exists_firstRoute (hnext : SameNodes next) (h : Walk next D calls E) :
    ∀ e ∈ E, ∃ is, FirstRoute next D calls is e := by
  induction h with
  | nil => simp
  | again ha _ ih =>
    intro e he
    obtain ⟨is, his⟩ := ih e he
    exact his.again ha
  | @first D a l calls E E' ha hbelow h ihbelow ih =>
    intro e he
    rcases List.mem_cons.mp he with rfl | he
    · exact ⟨[0], .head ha⟩
    rcases List.mem_append.mp he with he | he
    · obtain ⟨is, his⟩ := ihbelow e he
      exact ⟨0 :: is, his.below ha⟩
    · obtain ⟨is, his⟩ := ih e he
      have hset : insert a D ∪ met E = D ∪ insert a (met E) := by
        rw [Set.insert_union, Set.union_insert]
      rw [hset] at his
      have hall : Walk next D [(a, l)] ((a, l) :: E ++ []) := .first ha hbelow (.nil _)
      have hclosed := hall.closed_of_sameNodes hnext
      rw [List.append_nil, met_cons] at hclosed
      exact his.behind (.inl rfl) hclosed

/-- The calls of a walk that meet a node are those at the end of a first route. -/
theorem Walk.mem_iff_firstRoute (hnext : SameNodes next) (h : Walk next D calls E) :
    e ∈ E ↔ ∃ is, FirstRoute next D calls is e := by
  constructor
  · exact h.exists_firstRoute hnext e
  · rintro ⟨is, his⟩
    obtain ⟨a, l⟩ := e
    have hcalls : ∀ c ∈ calls, c.1 ∈ D ∪ met E :=
      fun c hc ↦ h.closed c (List.mem_append_left _ hc)
    obtain ⟨l', hl'⟩ : a ∈ met E :=
      his.route.mem (h.closed_of_sameNodes hnext) subset_rfl hcalls
    obtain ⟨js, hjs⟩ := h.exists_firstRoute hnext _ hl'
    obtain rfl : l = l' := his.unique hjs
    exact hl'

end MotionPie.Graph
