import MotionPie.Support.Kconfig.DupsValue
import MotionPie.Support.Kconfig.Operands

/-!
# Nothing is left to join

`expr_eliminate_dups` ends with a turn that changes nothing. That turn has looked at every two
operands of every conjunction and disjunction, so no two of them can be joined.
-/

namespace MotionPie.Support.Kconfig.Expr

variable {env : Env} {j k : Junction} {e x y r : Expr} {p p1 p2 : Path} {fuel : Nat}
  {once : Bool} {act : Act} {s s' : Dups}

/-! ### A call that changes nothing -/

/-- Two steps that lead back have changed nothing. -/
theorem Change.eq_of_back (h : Change once j s s') (h' : Change once k s' s) : s' = s := by
  rcases h.progress with heq | hlt
  · exact heq
  · rcases h'.progress with heq | hlt'
    · exact heq.symm
    · exact absurd (Nat.lt_trans hlt.1 hlt'.1) (Nat.lt_irrefl _)

/-- Neither the act nor the operands of the first node among themselves have changed anything. -/
structure Fixed (once : Bool) (act : Act) (j : Junction) (s : Dups) (p1 p2 : Path) : Prop where
  operand : ∀ x k, s.root.get? p1 = some x → x.junction? = some k →
    ∃ fuel, 3 * x.size ≤ fuel ∧ sweep once act fuel k p1 p1 s = some s
  act : ∀ x, s.root.get? p1 = some x → act j x.junction? p1 p2 s = some s

theorem fixed_of_visit (hlocal : Local act) (hact : ActSpec once act) {t : Shape}
    (hs : 1 ≤ (s.root.shape j).height) (hp1 : (s.root.shape j).sub p1 = some .leaf)
    (hp2 : (s.root.shape j).sub p2 = some t) (ht : once = true → t = .leaf)
    (hfuel : 3 * s.root.size ≤ fuel + 1 + 2 * (s.root.shape j).height) (hne : p1 ≠ p2)
    (h : visit act (sweep once act fuel) j p1 p2 s = some s) : Fixed once act j s p1 p2 := by
  obtain ⟨x, hx, -⟩ := exists_get?_of_sub hp1
  have hsize := size_add_height_le hp1 hx
  have hoperand : 3 * x.size ≤ fuel := by omega
  simp only [visit, if_neg hne, hx, Option.bind_eq_bind, Option.bind_some] at h
  cases hk : x.junction? with
  | none =>
    refine ⟨fun y k hy hyk ↦ ?_, fun y hy ↦ ?_⟩
    · rw [hx, Option.some.injEq] at hy
      rw [← hy, hk] at hyk
      cases hyk
    · rw [hx, Option.some.injEq] at hy
      simpa [← hy, hk] using h
  | some k =>
    obtain ⟨s', hs', hchange, x', hx', hk'⟩ :=
      exists_sweep_operand hlocal (returns_sweep hlocal hact fuel) hp1 hx hk hoperand
    rw [hk, Option.elim_some, hs', Option.bind_some] at h
    rw [← hchange.shape] at hs hp1 hp2
    obtain ⟨s'', hs'', hchange'⟩ := hact j s' p1 p2 x' t hs hp1 hp2 ht hne hx'
    rw [hk', h, Option.some.injEq] at hs''
    subst hs''
    have heq := hchange.eq_of_back hchange'
    rw [heq] at hs' h
    refine ⟨fun y k' hy hyk ↦ ?_, fun y hy ↦ ?_⟩
    · rw [hx, Option.some.injEq] at hy
      subst hy
      rw [hk, Option.some.injEq] at hyk
      subst hyk
      exact ⟨fuel, hoperand, hs'⟩
    · rw [hx, Option.some.injEq] at hy
      subst hy
      rw [hk]
      exact h

/-- Two calls that change nothing together change nothing each. -/
theorem fixed_two {q1 q2 : Path} {t1 t2 u1 u2 : Shape} {n : Nat}
    (hret : Returns once act fuel) (hs : 1 ≤ (s.root.shape j).height)
    (hp1 : (s.root.shape j).sub p1 = some t1) (hp2 : (s.root.shape j).sub p2 = some t2)
    (hq1 : (s.root.shape j).sub q1 = some u1) (hq2 : (s.root.shape j).sub q2 = some u2)
    (hn : s.root.size ≤ n)
    (hp : 3 * n + t1.height + t2.height ≤ fuel + 2 * (s.root.shape j).height)
    (hq : 3 * n + u1.height + u2.height ≤ fuel + 2 * (s.root.shape j).height)
    (h : (sweep once act fuel j p1 p2 s).bind (sweep once act fuel j q1 q2) = some s) :
    sweep once act fuel j p1 p2 s = some s ∧ sweep once act fuel j q1 q2 s = some s := by
  obtain ⟨s1, hs1, hchange1⟩ := hret j s p1 p2 t1 t2 n hs hp1 hp2 hn hp
  rw [← hchange1.shape] at hs hq1 hq2 hq
  obtain ⟨s2, hs2, hchange2⟩ := hret j s1 q1 q2 u1 u2 n hs hq1 hq2
    (Nat.le_trans hchange1.size_le hn) hq
  rw [hs1, Option.bind_some, hs2, Option.some.injEq] at h
  subst h
  have heq := hchange1.eq_of_back hchange2
  rw [heq] at hs1 hs2
  exact ⟨hs1, hs2⟩

/-- A call that changes nothing has looked at every operand below `p1` and every node below `p2`,
or every operand. -/
theorem fixed_of_sweep (hlocal : Local act) (hact : ActSpec once act) :
    ∀ fuel j s p1 p2 t1 t2 n, 1 ≤ (s.root.shape j).height → (s.root.shape j).sub p1 = some t1 →
      (s.root.shape j).sub p2 = some t2 → s.root.size ≤ n →
      3 * n + t1.height + t2.height ≤ fuel + 2 * (s.root.shape j).height →
      sweep once act fuel j p1 p2 s = some s →
      ∀ a b t, t1.sub a = some .leaf → t2.sub b = some t → (once = true → t = .leaf) →
        p1 ++ a ≠ p2 ++ b → Fixed once act j s (p1 ++ a) (p2 ++ b) := by
  intro fuel
  induction fuel with
  | zero =>
    intro j s p1 p2 t1 t2 n _ _ _ _ _ h
    cases h
  | succ fuel ih =>
    intro j s p1 p2 t1 t2 n hs hp1 hp2 hn hfuel h a b t ha hb ht hne
    have hret := returns_sweep hlocal hact fuel
    obtain ⟨x, hx, rfl⟩ := exists_get?_of_sub hp1
    simp only [sweep, hx, Option.bind_eq_bind, Option.bind_some] at h
    cases ht1 : x.shape j with
    | node l r =>
      rw [ht1] at hp1 hfuel ha
      simp only [Shape.height] at hfuel
      obtain ⟨_, _, rfl, -⟩ := shape_eq_node ht1
      rw [if_pos (show (two j _ _).junction? = some j from rfl)] at h
      obtain ⟨hl, hr⟩ := fixed_two hret hs (sub_left hp1) hp2 (sub_right hp1) hp2 hn
        (by omega) (by omega) h
      -- the path goes on to the left or to the right
      rcases a with _ | ⟨c, a⟩
      · cases ha
      · have happend : p1 ++ c :: a = p1 ++ [c] ++ a := by simp
        rw [happend] at hne ⊢
        cases c
        · exact ih j s _ p2 l t2 n hs (sub_left hp1) hp2 hn (by omega) hl a b t ha hb ht hne
        · exact ih j s _ p2 r t2 n hs (sub_right hp1) hp2 hn (by omega) hr a b t ha hb ht hne
    | leaf =>
      rw [ht1] at hp1 hfuel ha
      obtain ⟨rfl, -⟩ := Shape.sub_leaf_eq_some ha
      rw [List.append_nil] at hne ⊢
      obtain ⟨y, hy, rfl⟩ := exists_get?_of_sub hp2
      rw [if_neg (junction?_of_shape ht1)] at h
      simp only [hy, Option.bind_some] at h
      have hsize : 3 * s.root.size ≤ fuel + 1 + 2 * (s.root.shape j).height := by omega
      cases ht2 : y.shape j with
      | leaf =>
        rw [ht2] at hp2 hb
        obtain ⟨rfl, -⟩ := Shape.sub_leaf_eq_some hb
        rw [List.append_nil] at hne ⊢
        rw [if_neg (junction?_of_shape ht2)] at h
        exact fixed_of_visit hlocal hact hs hp1 hp2 (fun _ ↦ rfl) hsize hne h
      | node l r =>
        rw [ht2] at hp2 hfuel hb
        simp only [Shape.height] at hfuel
        obtain ⟨_, _, rfl, -⟩ := shape_eq_node ht2
        rw [if_pos (show (two j _ _).junction? = some j from rfl)] at h
        obtain ⟨s', hs', hchange⟩ := exists_two hret hs hp1 (sub_left hp2) hp1 (sub_right hp2) hn
          (by simp only [Shape.height]; omega) (by simp only [Shape.height]; omega)
        -- the operands of the second node, and the node itself unless `once`
        have hback : s' = s ∧
            (once = false → visit act (sweep once act fuel) j p1 p2 s = some s) := by
          rw [hs', Option.bind_some] at h
          cases once with
          | true => exact ⟨Option.some.inj h, fun h ↦ Bool.noConfusion h⟩
          | false =>
            have hsize' := hchange.size_le
            have hshape := hchange.shape
            obtain ⟨s'', hs'', hchange'⟩ := exists_visit hlocal hact hret (hshape ▸ hs)
              (hshape ▸ hp1) (hshape ▸ hp2) (fun h ↦ Bool.noConfusion h)
              (by rw [hshape]; omega)
            rw [if_neg Bool.false_ne_true, hs'', Option.some.injEq] at h
            subst h
            have heq := hchange.eq_of_back hchange'
            rw [heq] at hs''
            exact ⟨heq, fun _ ↦ hs''⟩
        rw [hback.1] at hs'
        obtain ⟨hl, hr⟩ := fixed_two hret hs hp1 (sub_left hp2) hp1 (sub_right hp2) hn
          (by simp only [Shape.height]; omega) (by simp only [Shape.height]; omega) hs'
        rcases b with _ | ⟨c, b⟩
        · rw [List.append_nil] at hne ⊢
          cases once with
          | true => exact absurd (Option.some.inj hb ▸ ht rfl) (by simp)
          | false =>
            exact fixed_of_visit hlocal hact hs hp1 hp2 (fun h ↦ Bool.noConfusion h) hsize hne
              (hback.2 rfl)
        · have happend : p2 ++ c :: b = p2 ++ [c] ++ b := by simp
          rw [happend] at hne ⊢
          have hnil : p1 = p1 ++ [] := by simp
          rw [hnil] at hne ⊢
          cases c
          · exact ih j s p1 _ .leaf l n hs hp1 (sub_left hp2) hn
              (by simp only [Shape.height]; omega) hl [] b t rfl hb ht hne
          · exact ih j s p1 _ .leaf r n hs hp1 (sub_right hp2) hn
              (by simp only [Shape.height]; omega) hr [] b t rfl hb ht hne

/-! ### Operands and the paths that lead to them -/

theorem exists_sub_leaf (t : Shape) : ∃ p, t.sub p = some .leaf := by
  induction t with
  | leaf => exact ⟨[], rfl⟩
  | node l r ihl _ =>
    obtain ⟨p, hp⟩ := ihl
    exact ⟨false :: p, hp⟩

/-- A node of the type has two operands. -/
theorem exists_other {t : Shape} (ht : 1 ≤ t.height) (p : Path) :
    ∃ q, t.sub q = some .leaf ∧ p ≠ q := by
  cases t with
  | leaf => exact absurd ht (by decide)
  | node l r =>
    obtain ⟨a, ha⟩ := exists_sub_leaf l
    obtain ⟨b, hb⟩ := exists_sub_leaf r
    by_cases h : p = false :: a
    · exact ⟨true :: b, hb, by simp [h]⟩
    · exact ⟨false :: a, ha, h⟩

theorem exists_path_of_mem_operands {a : Expr} (h : a ∈ e.operands j) :
    ∃ p, (e.shape j).sub p = some .leaf ∧ e.get? p = some a := by
  induction e using operand_induction j with
  | leaf e he =>
    rw [operands_of_junction? he, List.mem_singleton] at h
    exact ⟨[], by rw [shape_of_junction? he]; rfl, by simp [h]⟩
  | node l r ihl ihr =>
    rw [operands_two, List.mem_append] at h
    rw [shape_two]
    rcases h with h | h
    · obtain ⟨p, hp, hx⟩ := ihl h
      exact ⟨false :: p, hp, hx⟩
    · obtain ⟨p, hp, hx⟩ := ihr h
      exact ⟨true :: p, hp, hx⟩

/-- What holds of what two paths lead to holds of any two operands. -/
theorem pairwise_operands {R : Expr → Expr → Prop}
    (h : ∀ p q a b, (e.shape j).sub p = some .leaf → (e.shape j).sub q = some .leaf → p ≠ q →
      e.get? p = some a → e.get? q = some b → R a b) : (e.operands j).Pairwise R := by
  induction e using operand_induction j with
  | leaf e he =>
    rw [operands_of_junction? he]
    exact List.pairwise_singleton _ _
  | node l r ihl ihr =>
    rw [shape_two] at h
    rw [operands_two, List.pairwise_append]
    refine ⟨ihl fun p q a b hp hq hne ↦ ?_, ihr fun p q a b hp hq hne ↦ ?_, ?_⟩
    · exact h (false :: p) (false :: q) a b hp hq (by simpa using hne)
    · exact h (true :: p) (true :: q) a b hp hq (by simpa using hne)
    · intro a ha b hb
      obtain ⟨p, hp, hpa⟩ := exists_path_of_mem_operands ha
      obtain ⟨q, hq, hqb⟩ := exists_path_of_mem_operands hb
      exact h (false :: p) (true :: q) a b hp hq (by simp) hpa hqb

/-- A path stays in the nodes of the type, or it leads through an operand. -/
theorem path_cases (j : Junction) (h : e.get? p = some x) :
    (∃ t, (e.shape j).sub p = some t) ∨
      ∃ a q y, p = a ++ q ∧ (e.shape j).sub a = some .leaf ∧ e.get? a = some y ∧
        y.get? q = some x ∧ y.junction? ≠ none := by
  induction p generalizing e with
  | nil => exact .inl ⟨_, rfl⟩
  | cons b p ih =>
    obtain ⟨k, l, r, rfl, h'⟩ := get?_cons_eq_some.mp h
    by_cases hk : k = j
    · subst hk
      rw [shape_two]
      cases b
      · rcases ih (e := l) h with ⟨t, ht⟩ | ⟨a, q, y, rfl, ha, hy, hx, hne⟩
        · exact .inl ⟨t, ht⟩
        · exact .inr ⟨false :: a, q, y, rfl, ha, hy, hx, hne⟩
      · rcases ih (e := r) h with ⟨t, ht⟩ | ⟨a, q, y, rfl, ha, hy, hx, hne⟩
        · exact .inl ⟨t, ht⟩
        · exact .inr ⟨true :: a, q, y, rfl, ha, hy, hx, hne⟩
    · right
      refine ⟨[], b :: p, two k l r, rfl, ?_, by simp, h, by simp [junction?]⟩
      rw [shape_of_junction? (by simpa [junction?] using hk)]
      rfl

/-! ### The whole expression -/

theorem height_of_junction? (h : e.junction? = some j) : 1 ≤ (e.shape j).height := by
  obtain ⟨l, r, rfl⟩ := exists_of_junction? h
  rw [shape_two]
  exact Nat.le_add_left 1 _

/-- A call that changes nothing below an operand changes nothing of the operand. -/
theorem sweep_operand_eq (hlocal : Local act) (hx : s.root.get? p = some x)
    (h : sweep once act fuel k p p s = some s) :
    sweep once act fuel k [] [] ⟨x, s.count⟩ = some ⟨x, s.count⟩ := by
  have hs : s = Dups.below s.root p ⟨x, s.count⟩ := by
    rw [Dups.below, put_get? hx]
  have hsweep : sweep once act fuel k (p ++ []) (p ++ []) (Dups.below s.root p ⟨x, s.count⟩) = _ :=
    local_sweep hlocal hx k [] [] ⟨x, s.count⟩
  rw [List.append_nil, ← hs, h] at hsweep
  obtain ⟨⟨r, c⟩, hr, hbelow⟩ := Option.map_eq_some_iff.mp hsweep.symm
  rw [hr, Option.some.injEq]
  have hroot := congrArg (fun s : Dups ↦ s.root.get? p) hbelow
  simp only [Dups.below, get?_put hx, hx, Option.some.injEq] at hroot
  have hcount : c = s.count := congrArg Dups.count hbelow
  rw [hroot, hcount]

/-- A call that changes nothing says something about any two operands of every conjunction and
disjunction: what `act` says when it changes nothing. -/
theorem pairwise_of_sweep (hlocal : Local act) (hact : ActSpec once act)
    {R : Junction → Expr → Expr → Prop}
    (hR : ∀ j s p1 p2 a b, s.root.get? p1 = some a → s.root.get? p2 = some b →
      act j a.junction? p1 p2 s = some s → R j a b) :
    ∀ n e c j fuel, e.size ≤ n → e.junction? = some j → 3 * e.size ≤ fuel →
      sweep once act fuel j [] [] ⟨e, c⟩ = some ⟨e, c⟩ →
      ∀ p x i, e.get? p = some x → (x.operands i).Pairwise fun a b ↦ R i a b ∧ R i b a := by
  intro n
  induction n with
  | zero => exact fun e _ _ _ he ↦ absurd (size_pos e) (by omega)
  | succ n ih =>
    intro e c j fuel he hj hfuel h p x i hx
    have hheight := height_of_junction? hj
    have hfixed (a b : Path) (t : Shape) (ha : (e.shape j).sub a = some .leaf)
        (hb : (e.shape j).sub b = some t) (ht : once = true → t = .leaf) (hne : a ≠ b) :
        Fixed once act j ⟨e, c⟩ a b :=
      fixed_of_sweep hlocal hact fuel j ⟨e, c⟩ [] [] _ _ e.size hheight rfl rfl (Nat.le_refl _)
        (by omega) h a b t ha hb ht hne
    -- the operands that are nodes of the other type
    have hinner (a q : Path) (y : Expr) (ha : (e.shape j).sub a = some .leaf)
        (hy : e.get? a = some y) (hk : y.junction? ≠ none) (hq : y.get? q = some x) :
        (x.operands i).Pairwise fun a b ↦ R i a b ∧ R i b a := by
      obtain ⟨k, hk⟩ := Option.ne_none_iff_exists'.mp hk
      obtain ⟨b, hb, hne⟩ := exists_other hheight a
      obtain ⟨f, hf, hsweep⟩ := (hfixed a b _ ha hb (fun _ ↦ rfl) hne).operand y k hy hk
      have hsize := size_add_height_le ha hy
      exact ih y c k f (by omega) hk hf (sweep_operand_eq hlocal hy hsweep) q x i hq
    rcases path_cases j hx with ⟨t, ht⟩ | ⟨a, q, y, rfl, ha, hy, hq, hk⟩
    · by_cases hi : i = j
      · subst hi
        obtain ⟨x', hx', hshape⟩ := exists_get?_of_sub ht
        rw [hx, Option.some.injEq] at hx'
        subst hx' hshape
        apply pairwise_operands
        intro a b u v ha hb hne hu hv
        have hsub (a : Path) (ha : (x.shape i).sub a = some .leaf) :
            (e.shape i).sub (p ++ a) = some .leaf := by rw [Shape.sub_append, ht]; exact ha
        have hget (a : Path) (u : Expr) (hu : x.get? a = some u) :
            e.get? (p ++ a) = some u := by rw [get?_append, hx]; exact hu
        have hne' : p ++ a ≠ p ++ b := by simpa using hne
        refine ⟨hR i ⟨e, c⟩ (p ++ a) (p ++ b) u v (hget a u hu) (hget b v hv) ?_,
          hR i ⟨e, c⟩ (p ++ b) (p ++ a) v u (hget b v hv) (hget a u hu) ?_⟩
        · exact (hfixed _ _ _ (hsub a ha) (hsub b hb) (fun _ ↦ rfl) hne').act u (hget a u hu)
        · exact (hfixed _ _ _ (hsub b hb) (hsub a ha) (fun _ ↦ rfl) hne'.symm).act v (hget b v hv)
      · by_cases hxi : x.junction? = some i
        · -- a node of the other type is an operand
          have hleaf : t = .leaf := by
            obtain ⟨x', hx', hshape⟩ := exists_get?_of_sub ht
            rw [hx, Option.some.injEq] at hx'
            rw [← hshape, ← hx']
            exact shape_of_junction? (by rw [hxi]; simpa using hi)
          exact hinner p [] x (hleaf ▸ ht) hx (by rw [hxi]; simp) (by simp)
        · rw [operands_of_junction? hxi]
          exact List.pairwise_singleton _ _
    · exact hinner a q y ha hy hk hq

/-- What is left of two operands, both of them as they are. -/
structure Apart (j : Junction) (a b : Expr) : Prop where
  join : join j a b = none
  refutes : ∀ k, a.junction? = some k → refutes k a b = false

theorem Apart.ne {a b : Expr} (h : Apart j a b) : exprEq a b = false ∧ a ≠ b := by
  have heq : exprEq a b = false := by
    by_contra hne
    rw [Bool.not_eq_false] at hne
    have := h.join
    rw [join_of_exprEq j hne] at this
    cases this
  refine ⟨heq, fun hab ↦ ?_⟩
  rw [hab, exprEq_refl] at heq
  cases heq

/-- In what `expr_eliminate_dups` returns no two operands of a conjunction or a disjunction, down
to the first negation, are equal or can be joined, and none refutes another one. -/
theorem eliminateDups_apart (e : Expr) {x : Expr} {p : Path}
    (hx : e.eliminateDups.get? p = some x) (j : Junction) :
    (x.operands j).Pairwise fun a b ↦
      (Apart j a b ∧ Apart j b a) ∧ exprEq a b = false ∧ a ≠ b := by
  have hfix := (eliminated_eliminateDups e).fixed
  generalize e.eliminateDups = r at hx hfix
  cases hk : r.junction? with
  | none =>
    -- a path ends at once
    obtain rfl : r = x := by
      cases p with
      | nil => simpa using hx
      | cons b p =>
        obtain ⟨k, l, r', rfl, -⟩ := get?_cons_eq_some.mp hx
        simp [junction?] at hk
    rw [operands_of_junction? (by simp [hk])]
    exact List.pairwise_singleton _ _
  | some k =>
    obtain ⟨s1, hs1, h1⟩ := exists_eliminateDups1 0 hk
    have hk1 := junction?_of_shape_eq hk h1.shape
    obtain ⟨s2, hs2, h2⟩ := exists_eliminateDups2 s1.count hk1
    simp only [dupsRound, hk, hs1, hk1, Option.bind_eq_bind, Option.bind_some] at hfix
    rw [show eliminateDups2 (3 * s1.root.size) k [] [] s1 = some s2 from hs2,
      Option.some.injEq] at hfix
    subst hfix
    -- the first function has changed nothing, since the second one ends where it began
    have hback : s1 = ⟨r, 0⟩ := by
      rcases h1.progress with heq | hlt
      · exact heq
      · rcases h2.progress with heq | hlt'
        · exact heq.symm
        · exact absurd (Nat.lt_trans hlt.1 hlt'.1) (Nat.lt_irrefl _)
    rw [hback] at hs1 hs2
    have hjoin := pairwise_of_sweep local_joinAct actSpec_joinAct
      (R := fun j a b ↦ join j a b = none) (fun j s p1 p2 a b ha hb hact ↦ by
        cases hj : join j a b with
        | none => rfl
        | some tmp =>
          simp only [joinAct, ha, hb, Option.bind_eq_bind, Option.bind_some, hj,
            Option.some.injEq] at hact
          exact absurd (congrArg Dups.count hact) (Nat.succ_ne_self _))
      r.size r 0 k _ (Nat.le_refl _) hk (Nat.le_refl _) hs1 p x j hx
    have hrefutes := pairwise_of_sweep local_refuteAct actSpec_refuteAct
      (R := fun _ a b ↦ ∀ k, a.junction? = some k → refutes k a b = false)
      (fun j s p1 p2 a b ha hb hact k hk ↦ by
        by_contra hne
        rw [Bool.not_eq_false] at hne
        simp only [refuteAct, hk, ha, hb, Option.bind_eq_bind, Option.bind_some, hne, if_true,
          Option.some.injEq] at hact
        exact absurd (congrArg Dups.count hact) (Nat.succ_ne_self _))
      r.size r 0 k _ (Nat.le_refl _) hk (Nat.le_refl _) hs2 p x j hx
    refine (hjoin.and hrefutes).imp ?_
    rintro a b ⟨⟨hab, hba⟩, ⟨hab', hba'⟩⟩
    exact ⟨⟨⟨hab, hab'⟩, ⟨hba, hba'⟩⟩, Apart.ne ⟨hab, hab'⟩⟩

theorem eliminateDups_apart_and :
    let a := symbol (.config (Base.str "A") .tristate)
    let b := symbol (.config (Base.str "B") .tristate)
    let e := two .and (two .and a b) (two .and (not a) a)
    (e.eliminateDups.operands .and).Pairwise fun a b ↦
      (Apart .and a b ∧ Apart .and b a) ∧ exprEq a b = false ∧ a ≠ b :=
  eliminateDups_apart _ (get?_nil _) .and

end MotionPie.Support.Kconfig.Expr
