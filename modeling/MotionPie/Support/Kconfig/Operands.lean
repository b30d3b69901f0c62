import MotionPie.Support.Kconfig.EliminateEq

/-!
# The operands of a conjunction or a disjunction

`a && (b && c)` has the operands `a`, `b` and `c`. `__expr_eliminate_eq` sees nothing else of an
expression: it compares two lists of operands. With that, `expr_eq` finds every expression equal
to itself.
-/

namespace MotionPie.Support.Kconfig.Expr

variable {env : Env} {j : Junction} {e e1 e2 : Expr} {eq : Expr → Expr → Bool}

/-- The operands of the nodes of the type. -/
def operands (j : Junction) : Expr → List Expr
  | two k l r => if k = j then l.operands j ++ r.operands j else [two k l r]
  | e => [e]

theorem operands_of_junction? (h : e.junction? ≠ some j) : e.operands j = [e] := by
  cases e with
  | two k l r => exact if_neg fun hk ↦ h (congrArg some hk)
  | symbol s => rfl
  | not e => rfl
  | comp b s t => rfl

theorem operands_two (j : Junction) (l r : Expr) :
    (two j l r).operands j = l.operands j ++ r.operands j := if_pos rfl

/-- No operand is a node of the type. -/
theorem junction?_of_mem_operands {a : Expr} (h : a ∈ e.operands j) : a.junction? ≠ some j := by
  induction e using operand_induction j with
  | leaf e he =>
    rw [operands_of_junction? he, List.mem_singleton] at h
    rwa [h]
  | node l r ihl ihr =>
    rw [operands_two, List.mem_append] at h
    exact h.elim ihl ihr

theorem size_le_of_mem_operands {a : Expr} (h : a ∈ e.operands j) : a.size ≤ e.size := by
  induction e using operand_induction j with
  | leaf e he =>
    rw [operands_of_junction? he, List.mem_singleton] at h
    rw [h]
  | node l r ihl ihr =>
    rw [operands_two, List.mem_append] at h
    simp only [size]
    rcases h with h | h
    · exact Nat.le_trans (ihl h) (by omega)
    · exact Nat.le_trans (ihr h) (by omega)

/-- The value of a list of operands. -/
def calcAll (env : Env) (j : Junction) (es : List Expr) : Tristate :=
  es.foldr (fun a v ↦ j.op (a.calcValue env) v) j.unit

theorem calcAll_append (env : Env) (j : Junction) (xs ys : List Expr) :
    calcAll env j (xs ++ ys) = j.op (calcAll env j xs) (calcAll env j ys) := by
  induction xs with
  | nil => simp [calcAll]
  | cons x xs ih =>
    simp only [calcAll, List.cons_append, List.foldr_cons] at ih ⊢
    rw [ih]
    ac_rfl

/-- The value of an expression is that of its operands together. -/
theorem calcValue_operands (env : Env) (j : Junction) (e : Expr) :
    e.calcValue env = calcAll env j (e.operands j) := by
  induction e using operand_induction j with
  | leaf e he => simp [operands_of_junction? he, calcAll]
  | node l r ihl ihr =>
    rw [operands_two, calcAll_append, ← ihl, ← ihr]
    rfl

/-! ### The elimination on lists of operands -/

/-- `e1` meets the operands of the other expression. -/
def eliminateRow (eq : Expr → Expr → Bool) (j : Junction) : List Expr → Expr → Expr × List Expr
  | [], e1 => (e1, [])
  | e2 :: es, e1 =>
    let x := (eliminateLeaf eq j () e1 e2).2
    let y := eliminateRow eq j es x.1
    (y.1, x.2 :: y.2)

/-- Every operand of one expression meets those of the other one. -/
def eliminateRows (eq : Expr → Expr → Bool) (j : Junction) :
    List Expr → List Expr → List Expr × List Expr
  | [], es => ([], es)
  | e1 :: rest, es =>
    let x := eliminateRow eq j es e1
    let y := eliminateRows eq j rest x.2
    (x.1 :: y.1, y.2)

theorem eliminateRow_append (xs ys : List Expr) (e1 : Expr) :
    eliminateRow eq j (xs ++ ys) e1 =
      ((eliminateRow eq j ys (eliminateRow eq j xs e1).1).1,
        (eliminateRow eq j xs e1).2 ++ (eliminateRow eq j ys (eliminateRow eq j xs e1).1).2) := by
  induction xs generalizing e1 with
  | nil => rfl
  | cons x xs ih =>
    simp only [List.cons_append, eliminateRow, ih]

theorem eliminateRows_append (xs ys es : List Expr) :
    eliminateRows eq j (xs ++ ys) es =
      ((eliminateRows eq j xs es).1 ++ (eliminateRows eq j ys (eliminateRows eq j xs es).2).1,
        (eliminateRows eq j ys (eliminateRows eq j xs es).2).2) := by
  induction xs generalizing es with
  | nil => rfl
  | cons x xs ih => simp only [List.cons_append, eliminateRows, ih]

/-- A step leaves operands. -/
theorem junction?_eliminateLeaf (h1 : e1.junction? ≠ some j) (h2 : e2.junction? ≠ some j) :
    (eliminateLeaf eq j () e1 e2).2.1.junction? ≠ some j ∧
      (eliminateLeaf eq j () e1 e2).2.2.junction? ≠ some j := by
  unfold eliminateLeaf
  split_ifs
  · exact ⟨h1, h2⟩
  · simp [junction?]
  · exact ⟨h1, h2⟩

theorem pairLeaf_operands (h1 : e1.junction? ≠ some j) :
    (pairLeaf j (eliminateLeaf eq j) e2 () e1).2.1.junction? ≠ some j ∧
      eliminateRow eq j (e2.operands j) e1 =
        ((pairLeaf j (eliminateLeaf eq j) e2 () e1).2.1,
          (pairLeaf j (eliminateLeaf eq j) e2 () e1).2.2.operands j) := by
  induction e2 using operand_induction j generalizing e1 with
  | leaf e2 h2 =>
    obtain ⟨h1', h2'⟩ := @junction?_eliminateLeaf j e1 e2 eq h1 h2
    rw [pairLeaf_of_junction? h2, operands_of_junction? h2, operands_of_junction? h2']
    exact ⟨h1', rfl⟩
  | node l r ihl ihr =>
    obtain ⟨hl, hl'⟩ := ihl h1
    obtain ⟨hr, hr'⟩ := ihr hl
    rw [pairLeaf_node, operands_two, eliminateRow_append, hl', hr', operands_two]
    exact ⟨hr, rfl⟩

/-- The operands that are left are those that the elimination on the lists leaves. -/
theorem eliminateRows_operands (e1 e2 : Expr) :
    eliminateRows eq j (e1.operands j) (e2.operands j) =
      ((eliminateEqType eq j e1 e2).1.operands j, (eliminateEqType eq j e1 e2).2.operands j) := by
  unfold eliminateEqType
  induction e1 using operand_induction j generalizing e2 with
  | leaf e1 h1 =>
    obtain ⟨h, hrow⟩ := @pairLeaf_operands j e1 e2 eq h1
    rw [pairAll_of_junction? h1, operands_of_junction? h1, eliminateRows, hrow,
      operands_of_junction? h]
    rfl
  | node l r ihl ihr =>
    rw [pairAll_node, operands_two, eliminateRows_append, ihl, ihr, operands_two]

/-! ### An expression and itself -/

/-- What the elimination leaves of an operand that it finds on the other side. -/
def blank (j : Junction) (a : Expr) : Expr := if IsYn a then a else symbol j.symbol

theorem isYn_symbol (j : Junction) : IsYn (symbol j.symbol) := (isYn_iff j).mpr (.inl rfl)

theorem isYn_blank (j : Junction) (a : Expr) : IsYn (blank j a) := by
  unfold blank
  split_ifs with h
  · exact h
  · exact isYn_symbol j

/-- An operand and a constant: nothing is taken out. -/
theorem eliminateRow_of_isYn {a : Expr} {es : List Expr}
    (heq : ∀ b ∈ es, eq a b = true → IsYn a ∧ a = b) : eliminateRow eq j es a = (a, es) := by
  induction es with
  | nil => rfl
  | cons b es ih =>
    have hleaf : eliminateLeaf eq j () a b = ((), a, b) := by
      unfold eliminateLeaf
      split_ifs with hconst hsame
      · rfl
      · obtain ⟨hyn, rfl⟩ := heq b List.mem_cons_self hsame
        exact absurd ⟨rfl, hyn⟩ hconst
      · rfl
    rw [eliminateRow, hleaf, ih fun b hb ↦ heq b (List.mem_cons_of_mem _ hb)]

/-- The laws of `expr_eq` that the comparison of an expression with itself rests on. -/
structure ReflOn (eq : Expr → Expr → Bool) (es : List Expr) : Prop where
  refl : ∀ a ∈ es, eq a a = true
  symbol_left : ∀ s b, eq (symbol s) b = true → b = symbol s
  symbol_right : ∀ s a, eq a (symbol s) = true → a = symbol s

/-- Every operand finds itself on the other side: those before it are constants already. -/
theorem eliminateRows_self {es : List Expr} (done : List Expr) (h : ReflOn eq es) :
    eliminateRows eq j es (done.map (blank j) ++ es) =
      (es.map (blank j), (done ++ es).map (blank j)) := by
  induction es generalizing done with
  | nil => simp [eliminateRows]
  | cons a es ih =>
    have hbefore : eliminateRow eq j (done.map (blank j)) a = (a, done.map (blank j)) := by
      apply eliminateRow_of_isYn
      intro b hb heq
      obtain ⟨c, -, rfl⟩ := List.mem_map.mp hb
      obtain ⟨s, hs⟩ : ∃ s, blank j c = symbol s := by
        rcases isYn_blank j c with h | h <;> exact ⟨_, h⟩
      rw [hs] at heq
      have ha := h.symbol_right s a heq
      rw [ha, hs]
      exact ⟨hs ▸ isYn_blank j c, rfl⟩
    have hself : (eliminateLeaf eq j () a a).2 = (blank j a, blank j a) := by
      unfold eliminateLeaf blank
      split_ifs with hconst hyn hsame hyn hyn <;> simp_all [h.refl a List.mem_cons_self]
    have hafter : eliminateRow eq j es (blank j a) = (blank j a, es) := by
      apply eliminateRow_of_isYn
      intro b _ heq
      obtain ⟨s, hs⟩ : ∃ s, blank j a = symbol s := by
        rcases isYn_blank j a with h | h <;> exact ⟨_, h⟩
      rw [hs] at heq
      rw [h.symbol_left s b heq]
      exact ⟨isYn_blank j a, hs⟩
    have hrest : ReflOn eq es :=
      ⟨fun b hb ↦ h.refl b (List.mem_cons_of_mem _ hb), h.symbol_left, h.symbol_right⟩
    have hih := ih (done ++ [a]) hrest
    rw [eliminateRows, eliminateRow_append, hbefore]
    simp only [eliminateRow, hself, hafter]
    simp only [List.map_append, List.map_cons, List.map_nil, List.append_assoc,
      List.singleton_append] at hih ⊢
    rw [hih]

/-- An expression whose operands are all constants is a constant. -/
theorem eliminateYn_of_operands (h : ∀ a ∈ e.operands j, IsYn a) :
    e.eliminateYn =
      if symbol j.dual.symbol ∈ e.operands j then symbol j.dual.symbol else symbol j.symbol := by
  have hne : symbol j.symbol ≠ symbol j.dual.symbol := by
    simpa using j.symbol_ne_dual
  induction e using operand_induction j with
  | leaf e he =>
    rw [operands_of_junction? he] at h ⊢
    rcases (isYn_iff j).mp (h e (List.mem_singleton_self e)) with rfl | rfl
    · simp [eliminateYn, hne.symm]
    · simp [eliminateYn]
  | node l r ihl ihr =>
    rw [operands_two, List.forall_mem_append] at h
    rw [eliminateYn_two, ihl h.1, ihr h.2, operands_two]
    by_cases hl : symbol j.dual.symbol ∈ l.operands j <;>
      by_cases hr : symbol j.dual.symbol ∈ r.operands j <;> simp [hl, hr, hne.symm]

theorem exprEq_symbol_left {s : Symbol} (h : exprEq (symbol s) e = true) : e = symbol s := by
  cases e <;> simp_all [exprEq, exprEqFuel]

theorem exprEq_symbol_right {s : Symbol} (h : exprEq e (symbol s) = true) : e = symbol s := by
  cases e <;> simp_all [exprEq, exprEqFuel]

/-- `expr_eq` finds every expression equal to itself. -/
theorem exprEq_refl (e : Expr) : exprEq e e = true := by
  suffices h : ∀ n, ∀ e : Expr, e.size ≤ n → exprEq e e = true from h e.size e (Nat.le_refl _)
  intro n
  induction n with
  | zero => exact fun e he ↦ absurd (size_pos e) (by omega)
  | succ n ih =>
    intro e he
    cases e with
    | symbol s => simp
    | comp b s t => simp [exprEq, exprEqFuel]
    | not e =>
      rw [exprEq_not]
      exact ih e (Nat.le_of_succ_le_succ he)
    | two j l r =>
      simp only [size] at he
      have hsmall (a : Expr) (ha : a ∈ (two j l r).operands j) : a.size ≤ n := by
        rw [operands_two, List.mem_append] at ha
        rcases ha with ha | ha
        · exact Nat.le_trans (size_le_of_mem_operands ha) (by omega)
        · exact Nat.le_trans (size_le_of_mem_operands ha) (by omega)
      have hrefl : ReflOn exprEq ((two j l r).operands j) :=
        ⟨fun a ha ↦ ih a (hsmall a ha), fun _ _ ↦ exprEq_symbol_left,
          fun _ _ ↦ exprEq_symbol_right⟩
      have hself := @eliminateRows_self j exprEq _ [] hrefl
      have hrows := @eliminateRows_operands j exprEq (two j l r) (two j l r)
      rw [List.map_nil, List.nil_append] at hself
      rw [hself, Prod.mk.injEq] at hrows
      have hconst (e : Expr) (he : ((two j l r).operands j).map (blank j) = e.operands j) :
          ∀ a ∈ e.operands j, IsYn a := by
        rw [← he]
        intro a ha
        obtain ⟨c, -, rfl⟩ := List.mem_map.mp ha
        exact isYn_blank j c
      rw [exprEq_two, eliminateEq, eliminateEqWith_two,
        eliminateYn_of_operands (hconst _ hrows.1), eliminateYn_of_operands (hconst _ hrows.2),
        ← hrows.1, ← hrows.2]
      split_ifs <;> simp [sameSymbol]

end MotionPie.Support.Kconfig.Expr
