import Mathlib.Data.Quot
import MotionPie.Base.Pairing
import MotionPie.Support.Kconfig.Operands

/-!
# What `expr_eq` calls equal

Two expressions without constants are equal for `expr_eq` exactly if one of them is the other one
with the operands of its conjunctions and disjunctions in another order or grouped in another way.
The function pairs the operands of two nodes, so it is about the operands up to that relation.
-/

namespace MotionPie.Support.Kconfig.Expr

open Base

variable {j : Junction} {e e1 e2 a : Expr} {eq : Expr → Expr → Bool} {es xs : List Expr}

/-- Other expressions of one meaning by the laws of commutativity and associativity alone. -/
inductive Rearranged : Expr → Expr → Prop
  | refl (e : Expr) : Rearranged e e
  | symm {e1 e2 : Expr} : Rearranged e1 e2 → Rearranged e2 e1
  | trans {e1 e2 e3 : Expr} : Rearranged e1 e2 → Rearranged e2 e3 → Rearranged e1 e3
  | comm (j : Junction) (l r : Expr) : Rearranged (two j l r) (two j r l)
  | assoc (j : Junction) (a b c : Expr) :
      Rearranged (two j (two j a b) c) (two j a (two j b c))
  | not {e1 e2 : Expr} : Rearranged e1 e2 → Rearranged (not e1) (not e2)
  | two {l l' r r' : Expr} (j : Junction) :
      Rearranged l l' → Rearranged r r' → Rearranged (two j l r) (two j l' r')

/-- No operand of a conjunction or a disjunction is `y` or `n`. -/
def Clean : Expr → Prop
  | symbol _ => True
  | not e => e.Clean
  | comp _ _ _ => True
  | two _ l r => ¬ IsYn l ∧ ¬ IsYn r ∧ l.Clean ∧ r.Clean

theorem Clean.settled (he : e.Clean) : e.Settled := by
  induction e with
  | symbol s => trivial
  | not e ih => trivial
  | comp b s t => trivial
  | two j l r ihl ihr =>
    obtain ⟨hl, hr, hl', hr'⟩ := he
    exact ⟨hl, hr, ihl hl', ihr hr'⟩

/-- The operands of such a node are such expressions, and none is a constant. -/
theorem Clean.of_mem_operands (he : e.Clean) (hyn : ¬ IsYn e) (ha : a ∈ e.operands j) :
    a.Clean ∧ ¬ IsYn a := by
  induction e using operand_induction j with
  | leaf e h =>
    rw [operands_of_junction? h, List.mem_singleton] at ha
    exact ha ▸ ⟨he, hyn⟩
  | node l r ihl ihr =>
    obtain ⟨hl, hr, hl', hr'⟩ := he
    rw [operands_two, List.mem_append] at ha
    exact ha.elim (ihl hl' hl) (ihr hr' hr)

/-! ### The classes of rearranged expressions -/

instance rearrangedSetoid : Setoid Expr :=
  ⟨Rearranged, Rearranged.refl, Rearranged.symm, Rearranged.trans⟩

/-- The expressions that one can be rearranged to. -/
abbrev Class : Type := Quotient rearrangedSetoid

/-- The class of an expression. -/
def cls (e : Expr) : Class := Quotient.mk _ e

theorem cls_eq_iff : e1.cls = e2.cls ↔ Rearranged e1 e2 := Quotient.eq

/-- A node over two classes. -/
def Class.two (j : Junction) : Class → Class → Class :=
  Quotient.map₂ (Expr.two j) fun _ _ hl _ _ hr ↦ Rearranged.two j hl hr

theorem Class.two_comm (j : Junction) (a b : Class) : two j a b = two j b a := by
  induction a using Quotient.inductionOn with
  | h a =>
    induction b using Quotient.inductionOn with
    | h b => exact Quotient.sound (Rearranged.comm j a b)

theorem Class.two_assoc (j : Junction) (a b c : Class) :
    two j (two j a b) c = two j a (two j b c) := by
  induction a using Quotient.inductionOn with
  | h a =>
    induction b using Quotient.inductionOn with
    | h b =>
      induction c using Quotient.inductionOn with
      | h c => exact Quotient.sound (Rearranged.assoc j a b c)

/-- One more operand. -/
def Class.add (j : Junction) (a : Class) (rest : Option Class) : Option Class :=
  some (rest.elim a (two j a))

theorem Class.add_comm (j : Junction) (a b : Class) (rest : Option Class) :
    add j a (add j b rest) = add j b (add j a rest) := by
  cases rest with
  | none => exact congrArg some (two_comm j a b)
  | some c =>
    simp only [add, Option.elim_some, ← two_assoc, two_comm j a b]

instance (j : Junction) : LeftCommutative (Class.add j) := ⟨Class.add_comm j⟩

/-- All operands together. -/
def Class.collect (j : Junction) (cs : List Class) : Option Class := cs.foldr (add j) none

theorem Class.collect_append {j : Junction} {xs ys : List Class} {a b : Class}
    (hx : collect j xs = some a) (hy : collect j ys = some b) :
    collect j (xs ++ ys) = some (two j a b) := by
  induction xs generalizing a with
  | nil => cases hx
  | cons x xs ih =>
    simp only [collect, List.cons_append, List.foldr_cons] at ih hx ⊢
    cases hxs : xs.foldr (add j) none with
    | none =>
      obtain rfl : xs = [] := by
        cases xs with
        | nil => rfl
        | cons c cs => simp [add] at hxs
      rw [hxs] at hx
      obtain rfl : x = a := by simpa [add] using hx
      rw [List.nil_append, show ys.foldr (add j) none = some b from hy]
      rfl
    | some c =>
      rw [hxs] at hx
      obtain rfl : two j x c = a := by simpa [add] using hx
      rw [ih hxs]
      simp only [add, Option.elim_some, two_assoc]

/-- An expression is its operands together. -/
theorem collect_operands (j : Junction) (e : Expr) :
    Class.collect j ((e.operands j).map cls) = some e.cls := by
  induction e using operand_induction j with
  | leaf e he => simp [operands_of_junction? he, Class.collect, Class.add]
  | node l r ihl ihr =>
    rw [operands_two, List.map_append, Class.collect_append ihl ihr]
    rfl

/-- To rearrange a node is to rearrange its operands and their order. -/
theorem Rearranged.operands (h : Rearranged e1 e2) (j : Junction) :
    ((e1.operands j).map cls).Perm ((e2.operands j).map cls) := by
  have hleaf {e1 e2 : Expr} (h : Rearranged e1 e2) (h1 : e1.junction? ≠ some j)
      (h2 : e2.junction? ≠ some j) :
      ((e1.operands j).map cls).Perm ((e2.operands j).map cls) := by
    rw [operands_of_junction? h1, operands_of_junction? h2, List.map_singleton,
      List.map_singleton, cls_eq_iff.mpr h]
  induction h with
  | refl e => exact List.Perm.refl _
  | symm _ ih => exact ih.symm
  | trans _ _ ih ih' => exact ih.trans ih'
  | comm k l r =>
    by_cases hk : k = j
    · subst hk
      simp only [operands_two, List.map_append]
      exact List.perm_append_comm
    · exact hleaf (.comm k l r) (by simpa [junction?] using hk) (by simpa [junction?] using hk)
  | assoc k a b c =>
    by_cases hk : k = j
    · subst hk
      simp only [operands_two, List.append_assoc]
      exact List.Perm.refl _
    · exact hleaf (.assoc k a b c) (by simpa [junction?] using hk)
        (by simpa [junction?] using hk)
  | not h _ => exact hleaf (.not h) (by simp [junction?]) (by simp [junction?])
  | two k hl hr ihl ihr =>
    by_cases hk : k = j
    · subst hk
      simp only [operands_two, List.map_append]
      exact ihl.append ihr
    · exact hleaf (.two k hl hr) (by simpa [junction?] using hk) (by simpa [junction?] using hk)

theorem rearranged_iff_operands (j : Junction) :
    Rearranged e1 e2 ↔ ((e1.operands j).map cls).Perm ((e2.operands j).map cls) := by
  refine ⟨fun h ↦ h.operands j, fun h ↦ cls_eq_iff.mp ?_⟩
  have hcollect := h.foldr_eq (f := Class.add j) none
  rw [show ((e1.operands j).map cls).foldr (Class.add j) none = some e1.cls from
    collect_operands j e1, show ((e2.operands j).map cls).foldr (Class.add j) none = some e2.cls
    from collect_operands j e2] at hcollect
  exact Option.some.inj hcollect

theorem eq_of_operands (h : e.operands j = [a]) : e = a := by
  have hpos (e : Expr) : 0 < (e.operands j).length := by
    induction e using operand_induction j with
    | leaf e he => simp [operands_of_junction? he]
    | node l r ihl _ =>
      rw [operands_two, List.length_append]
      exact Nat.lt_of_lt_of_le ihl (Nat.le_add_right _ _)
  cases hk : decide (e.junction? = some j) with
  | false =>
    rw [operands_of_junction? (of_decide_eq_false hk), List.singleton_inj] at h
    exact h
  | true =>
    obtain ⟨l, r, rfl⟩ := exists_of_junction? (of_decide_eq_true hk)
    have hlen := congrArg List.length h
    rw [operands_two, List.length_append, List.length_singleton] at hlen
    have := hpos l
    have := hpos r
    omega

/-- What rearranging leaves as it is: the node itself. -/
def Alike : Expr → Expr → Prop
  | symbol s, symbol t => s = t
  | comp b s t, comp b' s' t' => b = b' ∧ s = s' ∧ t = t'
  | not a, not b => Rearranged a b
  | two j _ _, two k _ _ => j = k
  | _, _ => False

theorem Rearranged.alike (h : Rearranged e1 e2) : Alike e1 e2 := by
  induction h with
  | refl e =>
    cases e with
    | symbol s => exact rfl
    | not a => exact .refl a
    | comp b s t => exact ⟨rfl, rfl, rfl⟩
    | two j l r => exact rfl
  | @symm e1 e2 _ ih =>
    cases e1 <;> cases e2 <;> simp_all [Alike]
    exact ih.symm
  | @trans e1 e2 e3 _ _ ih ih' =>
    cases e1 <;> cases e2 <;> cases e3 <;> simp_all [Alike]
    exact ih.trans ih'
  | comm j l r => exact rfl
  | assoc j a b c => exact rfl
  | not h _ => exact h
  | two j _ _ _ _ => exact rfl

/-! ### What the elimination leaves -/

/-- The operands that no constant stands for. -/
def remaining (es : List Expr) : List Expr := es.filter fun e ↦ ¬ IsYn e

theorem not_isYn_of_mem_remaining (h : a ∈ remaining es) : ¬ IsYn a := by
  simpa using (List.mem_filter.mp h).2

theorem remaining_of_forall (h : ∀ a ∈ es, ¬ IsYn a) : remaining es = es :=
  List.filter_eq_self.mpr fun a ha ↦ by simpa using h a ha

theorem exprEq_of_isYn {b : Expr} (ha : ¬ IsYn a) (hb : IsYn b) : exprEq a b = false := by
  rw [Bool.eq_false_iff]
  intro h
  rcases hb with rfl | rfl
  · exact ha (.inl (exprEq_symbol_right h))
  · exact ha (.inr (exprEq_symbol_right h))

/-- An operand takes the first one that it is equal to, and leaves a constant there. -/
theorem eliminateRow_exprEq (ha : ¬ IsYn a) (es : List Expr) :
    if (remaining es).any (exprEq a) then
      ∃ es', eliminateRow exprEq j es a = (symbol j.symbol, es') ∧
        remaining es' = (remaining es).eraseP (exprEq a) ∧
        ∀ b ∈ es', b ∈ es ∨ b = symbol j.symbol
    else eliminateRow exprEq j es a = (a, es) := by
  induction es with
  | nil => simp [remaining, eliminateRow]
  | cons b es ih =>
    cases hab : exprEq a b with
    | true =>
      have hb : ¬ IsYn b := fun h ↦ by simp [exprEq_of_isYn ha h] at hab
      have hleaf : (eliminateLeaf exprEq j () a b).2 = (symbol j.symbol, symbol j.symbol) := by
        simp [eliminateLeaf, ha, hab]
      have hrest : eliminateRow exprEq j es (symbol j.symbol) = (symbol j.symbol, es) :=
        eliminateRow_of_isYn fun c _ hc ↦ ⟨isYn_symbol j, (exprEq_symbol_left hc).symm⟩
      have hrem : remaining (b :: es) = b :: remaining es :=
        List.filter_cons_of_pos (by simpa using hb)
      rw [if_pos (by simp [hrem, hab])]
      refine ⟨symbol j.symbol :: es, ?_, ?_, ?_⟩
      · rw [eliminateRow, hleaf, hrest]
      · rw [hrem, List.eraseP_cons_of_pos hab]
        exact List.filter_cons_of_neg (by simpa using isYn_symbol j)
      · intro c hc
        rcases List.mem_cons.mp hc with rfl | hc
        · exact .inr rfl
        · exact .inl (List.mem_cons_of_mem _ hc)
    | false =>
      have hleaf : (eliminateLeaf exprEq j () a b).2 = (a, b) := by
        unfold eliminateLeaf
        simp [hab]
      have hany : (remaining (b :: es)).any (exprEq a) = (remaining es).any (exprEq a) := by
        unfold remaining
        rw [List.filter_cons]
        split_ifs <;> simp [hab]
      have herase : ∀ es', remaining es' = (remaining es).eraseP (exprEq a) →
          remaining (b :: es') = (remaining (b :: es)).eraseP (exprEq a) := by
        intro es' h
        unfold remaining at h ⊢
        rw [List.filter_cons, List.filter_cons, h]
        split_ifs
        · rw [List.eraseP_cons_of_neg (by simp [hab])]
        · rfl
      rw [hany]
      split_ifs at ih ⊢ with h
      · obtain ⟨es', hrow, hrem, hmem⟩ := ih
        refine ⟨b :: es', ?_, herase es' hrem, ?_⟩
        · rw [eliminateRow, hleaf, hrow]
        · intro c hc
          rcases List.mem_cons.mp hc with rfl | hc
          · exact .inl List.mem_cons_self
          · exact (hmem c hc).imp_left (List.mem_cons_of_mem _)
      · rw [eliminateRow, hleaf, ih]

/-- What is left over of the operands of two nodes. -/
structure LeftOver (j : Junction) (xs es : List Expr) (x : List Expr × List Expr) : Prop where
  remaining_eq : (remaining x.1, remaining x.2) = pairUp exprEq xs (remaining es)
  left : ∀ b ∈ x.1, b ∈ xs ∨ b = symbol j.symbol
  right : ∀ b ∈ x.2, b ∈ es ∨ b = symbol j.symbol

theorem leftOver_eliminateRows (hxs : ∀ a ∈ xs, ¬ IsYn a) (es : List Expr) :
    LeftOver j xs es (eliminateRows exprEq j xs es) := by
  induction xs generalizing es with
  | nil => exact ⟨rfl, fun b hb ↦ .inl hb, fun b hb ↦ .inl hb⟩
  | cons a xs ih =>
    obtain ⟨ha, hxs⟩ := List.forall_mem_cons.mp hxs
    have hrow := eliminateRow_exprEq (j := j) ha es
    split_ifs at hrow with hany
    · obtain ⟨es', hrow, hrem, hmem⟩ := hrow
      obtain ⟨hrest, hleft, hright⟩ := ih hxs es'
      rw [eliminateRows, hrow]
      refine ⟨?_, ?_, fun b hb ↦ ?_⟩
      · rw [pairUp, if_pos hany, ← hrem, ← hrest]
        congr 1
        exact List.filter_cons_of_neg (by simpa using isYn_symbol j)
      · rw [List.forall_mem_cons]
        exact ⟨.inr rfl, fun b hb ↦ (hleft b hb).imp_left (List.mem_cons_of_mem _)⟩
      · exact (hright b hb).elim (hmem b) .inr
    · obtain ⟨hrest, hleft, hright⟩ := ih hxs es
      rw [eliminateRows, hrow]
      refine ⟨?_, ?_, hright⟩
      · rw [pairUp, if_neg hany, ← hrest]
        congr 1
        exact List.filter_cons_of_pos (by simpa using ha)
      · rw [List.forall_mem_cons]
        exact ⟨.inl List.mem_cons_self, fun b hb ↦ (hleft b hb).imp_left (List.mem_cons_of_mem _)⟩

/-- What has the operands that remain is no constant, unless none remain. -/
theorem eq_symbol_iff_of_operands
    (h : e.operands j = if remaining es = [] then [symbol j.symbol] else remaining es) :
    (e = symbol j.symbol ↔ remaining es = []) ∧ e ≠ symbol j.dual.symbol := by
  split_ifs at h with hes
  · obtain rfl := eq_of_operands h
    exact ⟨iff_of_true rfl hes, by simpa using j.symbol_ne_dual⟩
  · have hyn : ¬ IsYn e := by
      intro hyn
      obtain ⟨s, rfl⟩ : ∃ s, e = symbol s := by
        rcases hyn with rfl | rfl <;> exact ⟨_, rfl⟩
      have hmem : symbol s ∈ remaining es := h ▸ List.mem_singleton_self _
      exact not_isYn_of_mem_remaining hmem hyn
    rw [isYn_iff j, not_or] at hyn
    exact ⟨iff_of_false hyn.1 hes, hyn.2⟩

/-- `expr_eliminate_yn` takes out the constants that were left there, and nothing else. -/
theorem operands_eliminateYn
    (h : ∀ a ∈ e.operands j, a = symbol j.symbol ∨ (a.Settled ∧ ¬ IsYn a)) :
    e.eliminateYn.operands j =
      if remaining (e.operands j) = [] then [symbol j.symbol] else remaining (e.operands j) := by
  induction e using operand_induction j with
  | leaf e he =>
    rw [operands_of_junction? he] at h ⊢
    rcases h e (List.mem_singleton_self e) with rfl | ⟨hset, hne⟩
    · simp [remaining, isYn_symbol, eliminateYn, operands]
    · rw [eliminateYn_of_settled hset, operands_of_junction? he]
      simp [remaining, hne]
  | node l r ihl ihr =>
    rw [operands_two, List.forall_mem_append] at h
    have hl := ihl h.1
    have hr := ihr h.2
    obtain ⟨hlunit, hldual⟩ := eq_symbol_iff_of_operands hl
    obtain ⟨hrunit, hrdual⟩ := eq_symbol_iff_of_operands hr
    have hrem : remaining ((two j l r).operands j) =
        remaining (l.operands j) ++ remaining (r.operands j) := by
      rw [operands_two]
      exact List.filter_append ..
    rw [eliminateYn_two, if_neg hldual, if_neg hrdual, hrem]
    by_cases hlnil : remaining (l.operands j) = []
    · rw [if_pos (hlunit.mpr hlnil), hr, hlnil, List.nil_append]
    · rw [if_neg fun h ↦ hlnil (hlunit.mp h)]
      by_cases hrnil : remaining (r.operands j) = []
      · rw [if_pos (hrunit.mpr hrnil), hl, hrnil, List.append_nil]
      · rw [if_neg fun h ↦ hrnil (hrunit.mp h), operands_two, hl, hr, if_neg hlnil, if_neg hrnil,
          if_neg (by simp [hlnil])]

/-- On two nodes of one type `expr_eq` pairs the operands. -/
theorem exprEq_two_iff {l r l' r' : Expr} (h1 : (two j l r).Clean) (h2 : (two j l' r').Clean) :
    exprEq (two j l r) (two j l' r') = true ↔
      pairUp exprEq ((two j l r).operands j) ((two j l' r').operands j) = ([], []) := by
  have hops {e a : Expr} (he : e.Clean) (hyn : ¬ IsYn e) (ha : a ∈ e.operands j) :
      a.Settled ∧ ¬ IsYn a :=
    ⟨(he.of_mem_operands hyn ha).1.settled, (he.of_mem_operands hyn ha).2⟩
  have hnode (l r : Expr) : ¬ IsYn (two j l r) := by simp [IsYn]
  have hleft := leftOver_eliminateRows (j := j)
    (fun a ha ↦ (hops h1 (hnode l r) ha).2) ((two j l' r').operands j)
  rw [eliminateRows_operands] at hleft
  obtain ⟨hpair, hmem1, hmem2⟩ := hleft
  rw [remaining_of_forall fun a ha ↦ (hops h2 (hnode l' r') ha).2, Prod.mk.injEq] at hpair
  have hx := operands_eliminateYn fun a ha ↦
    (hmem1 a ha).elim (fun ha ↦ .inr (hops h1 (hnode l r) ha)) .inl
  have hy := operands_eliminateYn fun a ha ↦
    (hmem2 a ha).elim (fun ha ↦ .inr (hops h2 (hnode l' r') ha)) .inl
  obtain ⟨hxunit, -⟩ := eq_symbol_iff_of_operands hx
  obtain ⟨hyunit, -⟩ := eq_symbol_iff_of_operands hy
  rw [hpair.1] at hx hxunit
  rw [hpair.2] at hy hyunit
  rw [exprEq_two, eliminateEq, eliminateEqWith_two, decide_eq_true rfl, Bool.true_and,
    Prod.ext_iff]
  constructor
  · intro h
    have hsame : (eliminateEqType exprEq j (two j l r) (two j l' r')).1.eliminateYn =
        (eliminateEqType exprEq j (two j l r) (two j l' r')).2.eliminateYn := eq_of_sameSymbol h
    by_cases hnil : (pairUp exprEq ((two j l r).operands j) ((two j l' r').operands j)).1 = []
    · exact ⟨hnil, hyunit.mp (hsame ▸ hxunit.mpr hnil)⟩
    · -- two symbols would be left over that are equal
      have hnil' := fun h ↦ hnil (hxunit.mp (hsame.trans (hyunit.mpr h)))
      obtain ⟨s, hs⟩ : ∃ s, (eliminateEqType exprEq j (two j l r) (two j l' r')).2.eliminateYn =
          symbol s := by
        unfold sameSymbol at h
        split at h
        · exact ⟨_, by assumption⟩
        · cases h
      rw [if_neg hnil, hsame, hs] at hx
      rw [if_neg hnil', hs] at hy
      have hmem : symbol s ∈ (symbol s).operands j := List.mem_singleton_self _
      have hapart := pairUp_apart (hx ▸ hmem) (hy ▸ hmem)
      rw [exprEq_refl] at hapart
      cases hapart
  · rintro ⟨hnil, hnil'⟩
    rw [hxunit.mpr hnil, hyunit.mpr hnil']
    simp [sameSymbol]

/-- `expr_eq` says that two expressions without constants are equal exactly if one can be
rearranged to the other one. -/
theorem exprEq_iff_rearranged (h1 : e1.Clean) (h2 : e2.Clean) :
    exprEq e1 e2 = true ↔ Rearranged e1 e2 := by
  suffices h : ∀ n, ∀ e1 e2 : Expr, e1.size ≤ n → e1.Clean → e2.Clean →
      (exprEq e1 e2 = true ↔ Rearranged e1 e2) from h e1.size e1 e2 (Nat.le_refl _) h1 h2
  intro n
  induction n with
  | zero => exact fun e1 _ he ↦ absurd (size_pos e1) (by omega)
  | succ n ih =>
    intro e1 e2 he h1 h2
    by_cases hkind : Alike e1 e2
    · cases e1 with
      | symbol s =>
        cases e2 with
        | symbol t =>
          obtain rfl : s = t := hkind
          exact iff_of_true (exprEq_refl _) (.refl _)
        | _ => exact hkind.elim
      | comp b s t =>
        cases e2 with
        | comp b' s' t' =>
          obtain ⟨rfl, rfl, rfl⟩ := hkind
          exact iff_of_true (exprEq_refl _) (.refl _)
        | _ => exact hkind.elim
      | not a =>
        cases e2 with
        | not b =>
          rw [exprEq_not]
          exact iff_of_true ((ih a b (Nat.le_of_succ_le_succ he) h1 h2).mpr hkind)
            (.not hkind)
        | _ => exact hkind.elim
      | two j l r =>
        cases e2 with
        | two k l' r' =>
          obtain rfl : j = k := hkind
          have hnode (l r : Expr) : ¬ IsYn (two j l r) := by simp [IsYn]
          rw [exprEq_two_iff h1 h2, rearranged_iff_operands j]
          refine pairUp_eq_nil_iff fun a ha b hb ↦ ?_
          rw [cls_eq_iff]
          refine ih a b ?_ (h1.of_mem_operands (hnode l r) ha).1
            (h2.of_mem_operands (hnode l' r') hb).1
          simp only [size] at he
          rw [operands_two, List.mem_append] at ha
          rcases ha with ha | ha
          · exact Nat.le_trans (size_le_of_mem_operands ha) (by omega)
          · exact Nat.le_trans (size_le_of_mem_operands ha) (by omega)
        | _ => exact hkind.elim
    · refine iff_of_false (fun h ↦ hkind ?_) fun h ↦ hkind h.alike
      cases e1 with
      | not a =>
        cases e2 with
        | not b =>
          rw [exprEq_not] at h
          exact (ih a b (Nat.le_of_succ_le_succ he) h1 h2).mp h
        | _ => exact Bool.noConfusion h
      | _ => cases e2 <;> simp_all [exprEq, exprEqFuel, Alike]

theorem exprEq_iff_rearranged_and :
    let a := symbol (.config (str "A") .boolean)
    let b := symbol (.config (str "B") .tristate)
    exprEq (two .and (two .and a b) (not a)) (two .and (not a) (two .and b a)) = true ↔
      Rearranged (two .and (two .and a b) (not a)) (two .and (not a) (two .and b a)) := by
  refine exprEq_iff_rearranged ?_ ?_ <;> simp [Clean, IsYn, Symbol.yes, Symbol.no]

end MotionPie.Support.Kconfig.Expr
