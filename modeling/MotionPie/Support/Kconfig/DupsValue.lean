import MotionPie.Support.Kconfig.EliminateDups

/-!
# What the elimination of duplicates keeps

Every step writes operands that have the value of the old ones together, and leaves a constant to
be taken out. So the expression gets smaller from turn to turn, the loop comes to an end, and the
value stays what it was. The second function relies on `a && !a` being `n`, which is wrong for a
symbol that is `m`.
-/

namespace MotionPie.Support.Kconfig.Expr

variable {env : Env} {j k : Junction} {e x y r : Expr} {p p1 p2 : Path} {fuel : Nat}
  {once : Bool} {act : Act} {s s' s'' : Dups}

/-- What a step does to the nodes of the type `j`: these stay where they are, the expression does
not grow, there is a constant to be taken out if something has changed, and the value is the one
it was, but for a value `m` when not `once`. A law about the operands holds on. -/
structure Change (once : Bool) (j : Junction) (s s' : Dups) : Prop where
  shape : s'.root.shape j = s.root.shape j
  size_le : s'.root.size ≤ s.root.size
  progress : s' = s ∨ (s.count < s'.count ∧ ¬ s'.root.Settled)
  decided : ∀ env, (s.root.calcValue env).Decided (s'.root.calcValue env)
  value : once = true → ∀ env, s'.root.calcValue env = s.root.calcValue env
  kept : ∀ P : Expr → Prop, Hereditary P → P s.root → P s'.root

theorem Change.refl (once : Bool) (j : Junction) (s : Dups) : Change once j s s :=
  ⟨rfl, Nat.le_refl _, .inl rfl, fun _ ↦ .refl _, fun _ _ ↦ rfl, fun _ _ h ↦ h⟩

theorem Change.trans (h : Change once j s s') (h' : Change once j s' s'') :
    Change once j s s'' := by
  refine ⟨h'.shape.trans h.shape, Nat.le_trans h'.size_le h.size_le, ?_,
    fun env ↦ (h.decided env).trans (h'.decided env),
    fun honce env ↦ (h'.value honce env).trans (h.value honce env),
    fun P hP hs ↦ h'.kept P hP (h.kept P hP hs)⟩
  rcases h'.progress with rfl | hp'
  · exact h.progress
  · right
    rcases h.progress with rfl | hp
    · exact hp'
    · exact ⟨Nat.lt_trans hp.1 hp'.1, hp'.2⟩

/-- A step below an operand is a step of the whole. -/
theorem Change.below (hk : k ≠ j) (hp : (s.root.shape j).sub p = some .leaf)
    (hx : s.root.get? p = some x) (hxk : x.junction? = some k)
    (h : Change once k ⟨x, s.count⟩ s') :
    Change once j s (s'.below s.root p) ∧ s'.root.junction? = some k := by
  have hkind : s'.root.junction? = some k := by
    obtain ⟨l, r, hlr⟩ := exists_of_junction? hxk
    have hshape := h.shape
    rw [hlr, shape_two] at hshape
    obtain ⟨a, b, hab, -⟩ := shape_eq_node hshape
    rw [hab]
    rfl
  have hrest (env : Env) : ∃ v, s.root.calcValue env = j.op v (x.calcValue env) ∧
      (s.root.put p s'.root).calcValue env = j.op v (s'.root.calcValue env) := by
    obtain ⟨v, hv⟩ := exists_rest env hp
    have hroot := hv x
    rw [put_get? hx] at hroot
    exact ⟨v, hroot, hv s'.root⟩
  refine ⟨⟨?_, ?_, ?_, fun env ↦ ?_, fun honce env ↦ ?_, fun P hP hs ↦ ?_⟩, hkind⟩
  · apply shape_put hp
    rw [hkind]
    simpa using hk
  · have := size_put (x := s'.root) hx
    have : s'.root.size ≤ x.size := h.size_le
    change (s.root.put p s'.root).size ≤ s.root.size
    omega
  · rcases h.progress with rfl | ⟨hcount, hset⟩
    · left
      simp [Dups.below, put_get? hx]
    · exact .inr ⟨hcount, not_settled_of_get? (get?_put hx) hset⟩
  · obtain ⟨v, hold, hnew⟩ := hrest env
    change (s.root.calcValue env).Decided ((s.root.put p s'.root).calcValue env)
    rw [hold, hnew]
    exact (h.decided env).op j v
  · obtain ⟨v, hold, hnew⟩ := hrest env
    change (s.root.put p s'.root).calcValue env = s.root.calcValue env
    rw [hold, hnew, h.value honce env]
  · exact hP.put hs (h.kept P hP (hP.get? hs hx)) p

/-- What an act does with an operand and a node of the type, or another operand. -/
def ActSpec (once : Bool) (act : Act) : Prop :=
  ∀ j s p1 p2 x t, 1 ≤ (s.root.shape j).height → (s.root.shape j).sub p1 = some .leaf →
    (s.root.shape j).sub p2 = some t → (once = true → t = .leaf) → p1 ≠ p2 →
    s.root.get? p1 = some x →
    ∃ s', act j x.junction? p1 p2 s = some s' ∧ Change once j s s'

theorem ne_nil_of_sub_leaf (hs : 1 ≤ (e.shape j).height)
    (hp : (e.shape j).sub p = some .leaf) : p ≠ [] := by
  rintro rfl
  have h : e.shape j = .leaf := Option.some.inj hp
  rw [h] at hs
  exact absurd hs (by decide)

theorem actSpec_joinAct : ActSpec true joinAct := by
  intro j s p1 p2 x t hs hp1 hp2 ht hne hx
  obtain rfl := ht rfl
  obtain ⟨y, hy, -⟩ := exists_get?_of_sub hp2
  have hx' := junction?_of_sub_leaf hp1 hx
  simp only [joinAct, hx, hy, Option.bind_eq_bind, Option.bind_some]
  cases hj : join j x y with
  | none => exact ⟨s, rfl, Change.refl true j s⟩
  | some tmp =>
    have hjoined := joined_join hj
    have hsym : (symbol j.symbol).junction? ≠ some j := by simp [junction?]
    have hshape1 : (s.root.put p1 (symbol j.symbol)).shape j = s.root.shape j :=
      shape_put hp1 hsym
    have hy1 : (s.root.put p1 (symbol j.symbol)).get? p2 = some y := by
      rw [get?_put_of_ne hp1 hp2 hne, hy]
    have hvalue (env : Env) : ((s.root.put p1 (symbol j.symbol)).put p2 tmp).calcValue env =
        s.root.calcValue env := by
      obtain ⟨v, hv⟩ := exists_rest_two env hp1 hp2 hne
      have hroot := hv x y
      rw [put_get? hx, put_get? hy] at hroot
      rw [hv, hroot, join_sound env hj, calcValue, env.tri_symbol, Junction.unit_op]
    refine ⟨_, rfl, ?_, ?_, ?_, fun env ↦ .inl (hvalue env), fun _ ↦ hvalue, fun P hP h ↦ ?_⟩
    · rw [shape_put (hshape1 ▸ hp2) (hjoined.junction? hx'), hshape1]
    · have h1 := size_put (x := symbol j.symbol) hx
      have h2 := size_put (x := tmp) hy1
      have h3 := hjoined.size_lt y
      simp only [size] at h1 h2 ⊢
      omega
    · refine .inr ⟨Nat.lt_succ_self _, ?_⟩
      refine not_settled_of_isYn (p := p1) ?_ (ne_nil_of_sub_leaf hs hp1)
        ((isYn_iff j).mpr (.inl rfl))
      change ((s.root.put p1 (symbol j.symbol)).put p2 tmp).get? p1 = _
      rw [get?_put_of_ne (hshape1 ▸ hp2) (hshape1 ▸ hp1) hne.symm, get?_put hx]
    · exact hP.put (hP.put h (hP.constant j) p1)
        (hP.join j x y tmp (hP.get? h hx) (hP.get? h hy) hj) p2
/-- A value and its negation together decide the whole, unless the whole is `m`. -/
theorem decided_op_not (j : Junction) (a b : Tristate) :
    (j.op b (j.op a a.not)).Decided j.dual.unit := by
  unfold Tristate.Decided
  cases j <;> cases a <;> cases b <;> decide

theorem actSpec_refuteAct : ActSpec false refuteAct := by
  intro j s p1 p2 x t hs hp1 hp2 _ hne hx
  cases hk : x.junction? with
  | none => exact ⟨s, rfl, Change.refl false j s⟩
  | some k =>
    obtain ⟨y, hy, -⟩ := exists_get?_of_sub hp2
    obtain rfl : k = j.dual := by
      apply Junction.eq_dual_of_ne
      rintro rfl
      exact junction?_of_sub_leaf hp1 hx hk
    simp only [refuteAct, hx, hy, Option.bind_eq_bind, Option.bind_some]
    split_ifs with href
    · refine ⟨_, rfl, ?_, ?_, ?_, fun env ↦ ?_, fun h ↦ Bool.noConfusion h, fun P hP h ↦ ?_⟩
      · exact shape_put hp1 (by simp [junction?])
      · have h1 := size_put (x := symbol j.dual.symbol) hx
        have h2 := size_pos x
        simp only [size] at h1 ⊢
        omega
      · refine .inr ⟨Nat.lt_succ_self _, ?_⟩
        exact not_settled_of_isYn (get?_put hx) (ne_nil_of_sub_leaf hs hp1)
          ((isYn_iff j).mpr (.inr rfl))
      · obtain ⟨w, hw⟩ := exists_of_refutes env href
        obtain ⟨v, hv⟩ := exists_rest env hp1
        rw [Junction.dual_dual] at hw
        -- the whole has the operand and, in the other node, its negation
        have hroot : s.root.calcValue env =
            j.op (j.op (s.root.calcValue env) w) (j.op (x.calcValue env) (x.calcValue env).not) :=
          calc s.root.calcValue env
            _ = j.op (j.op (s.root.calcValue env) (x.calcValue env)) (y.calcValue env) := by
              rw [op_calcValue_get? env hp1 hx, op_calcValue_get? env hp2 hy]
            _ = _ := by
              rw [hw]
              ac_rfl
        change (s.root.calcValue env).Decided
          ((s.root.put p1 (symbol j.dual.symbol)).calcValue env)
        rw [hv, calcValue, env.tri_symbol, Junction.op_dual_unit, hroot]
        exact decided_op_not j _ _
      · exact hP.put h (hP.constant_dual j) p1
    · exact ⟨s, rfl, Change.refl false j s⟩

/-! ### Every call comes back -/

/-- What is to be shown of the calls with some fuel. The paths go through nodes of the type, and
a path has three calls inside each other for every node of the expression left. -/
def Returns (once : Bool) (act : Act) (fuel : Nat) : Prop :=
  ∀ j s p1 p2 t1 t2 n, 1 ≤ (s.root.shape j).height → (s.root.shape j).sub p1 = some t1 →
    (s.root.shape j).sub p2 = some t2 → s.root.size ≤ n →
    3 * n + t1.height + t2.height ≤ fuel + 2 * (s.root.shape j).height →
    ∃ s', sweep once act fuel j p1 p2 s = some s' ∧ Change once j s s'

/-- The operands of an operand among themselves. -/
theorem exists_sweep_operand (hlocal : Local act) (hret : Returns once act fuel)
    (hp : (s.root.shape j).sub p = some .leaf) (hx : s.root.get? p = some x)
    (hk : x.junction? = some k) (hfuel : 3 * x.size ≤ fuel) :
    ∃ s', sweep once act fuel k p p s = some s' ∧ Change once j s s' ∧
      ∃ x', s'.root.get? p = some x' ∧ x'.junction? = some k := by
  have hkj : k ≠ j := by
    rintro rfl
    exact junction?_of_sub_leaf hp hx hk
  have hnode : 1 ≤ (x.shape k).height := by
    obtain ⟨l, r, rfl⟩ := exists_of_junction? hk
    rw [shape_two]
    exact Nat.le_add_left 1 _
  obtain ⟨s', hs', hchange⟩ := hret k ⟨x, s.count⟩ [] [] _ _ x.size hnode rfl rfl
    (Nat.le_refl _) (by omega)
  have hs : s = Dups.below s.root p ⟨x, s.count⟩ := by
    rw [Dups.below, put_get? hx]
  have hsweep : sweep once act fuel k (p ++ []) (p ++ []) (Dups.below s.root p ⟨x, s.count⟩) = _ :=
    local_sweep hlocal hx k [] [] ⟨x, s.count⟩
  rw [List.append_nil, ← hs, hs'] at hsweep
  obtain ⟨hbelow, hkind⟩ := hchange.below hkj hp hx hk
  exact ⟨_, hsweep, hbelow, _, get?_put hx, hkind⟩

theorem exists_visit (hlocal : Local act) (hact : ActSpec once act)
    (hret : Returns once act fuel) {t : Shape} (hs : 1 ≤ (s.root.shape j).height)
    (hp1 : (s.root.shape j).sub p1 = some .leaf) (hp2 : (s.root.shape j).sub p2 = some t)
    (ht : once = true → t = .leaf)
    (hfuel : 3 * s.root.size ≤ fuel + 1 + 2 * (s.root.shape j).height) :
    ∃ s', visit act (sweep once act fuel) j p1 p2 s = some s' ∧ Change once j s s' := by
  unfold visit
  split_ifs with hne
  · exact ⟨s, rfl, Change.refl once j s⟩
  · obtain ⟨x, hx, -⟩ := exists_get?_of_sub hp1
    have hsize := size_add_height_le hp1 hx
    simp only [hx, Option.bind_eq_bind, Option.bind_some]
    cases hk : x.junction? with
    | none =>
      have h := hact j s p1 p2 x t hs hp1 hp2 ht hne hx
      rw [hk] at h
      exact h
    | some k =>
      obtain ⟨s', hs', hchange, x', hx', hk'⟩ :=
        exists_sweep_operand hlocal hret hp1 hx hk (by omega)
      rw [Option.elim_some, hs', Option.bind_some, ← hk']
      rw [← hchange.shape] at hs hp1 hp2
      obtain ⟨s'', hs'', hchange'⟩ := hact j s' p1 p2 x' t hs hp1 hp2 ht hne hx'
      exact ⟨s'', hs'', hchange.trans hchange'⟩

/-- Two calls one after the other. -/
theorem exists_two {q1 q2 : Path} {t1 t2 u1 u2 : Shape} {n : Nat}
    (hret : Returns once act fuel) (hs : 1 ≤ (s.root.shape j).height)
    (hp1 : (s.root.shape j).sub p1 = some t1) (hp2 : (s.root.shape j).sub p2 = some t2)
    (hq1 : (s.root.shape j).sub q1 = some u1) (hq2 : (s.root.shape j).sub q2 = some u2)
    (hn : s.root.size ≤ n)
    (hp : 3 * n + t1.height + t2.height ≤ fuel + 2 * (s.root.shape j).height)
    (hq : 3 * n + u1.height + u2.height ≤ fuel + 2 * (s.root.shape j).height) :
    ∃ s', (sweep once act fuel j p1 p2 s).bind (sweep once act fuel j q1 q2) = some s' ∧
      Change once j s s' := by
  obtain ⟨s1, hs1, hchange1⟩ := hret j s p1 p2 t1 t2 n hs hp1 hp2 hn hp
  rw [← hchange1.shape] at hs hq1 hq2 hq
  obtain ⟨s2, hs2, hchange2⟩ := hret j s1 q1 q2 u1 u2 n hs hq1 hq2
    (Nat.le_trans hchange1.size_le hn) hq
  exact ⟨s2, by rw [hs1, Option.bind_some, hs2], hchange1.trans hchange2⟩

theorem sub_left {sh l r : Shape} (h : sh.sub p = some (.node l r)) :
    sh.sub (p ++ [false]) = some l := by
  rw [Shape.sub_append, h]
  rfl

theorem sub_right {sh l r : Shape} (h : sh.sub p = some (.node l r)) :
    sh.sub (p ++ [true]) = some r := by
  rw [Shape.sub_append, h]
  rfl

/-- With enough fuel every call comes back. -/
theorem returns_sweep (hlocal : Local act) (hact : ActSpec once act) (fuel : Nat) :
    Returns once act fuel := by
  induction fuel with
  | zero =>
    intro j s p1 p2 t1 t2 n hs hp1 hp2 hn hfuel
    have := height_shape_lt j s.root
    omega
  | succ fuel ih =>
    intro j s p1 p2 t1 t2 n hs hp1 hp2 hn hfuel
    obtain ⟨x, hx, rfl⟩ := exists_get?_of_sub hp1
    simp only [sweep, hx, Option.bind_eq_bind, Option.bind_some]
    cases ht1 : x.shape j with
    | node l r =>
      rw [ht1] at hp1 hfuel
      simp only [Shape.height] at hfuel
      obtain ⟨a, b, rfl, -⟩ := shape_eq_node ht1
      rw [if_pos (show (two j a b).junction? = some j from rfl)]
      exact exists_two ih hs (sub_left hp1) hp2 (sub_right hp1) hp2 hn (by omega) (by omega)
    | leaf =>
      rw [ht1] at hp1 hfuel
      obtain ⟨y, hy, rfl⟩ := exists_get?_of_sub hp2
      rw [if_neg (junction?_of_shape ht1)]
      simp only [hy, Option.bind_some]
      have hsize : 3 * s.root.size ≤ fuel + 1 + 2 * (s.root.shape j).height := by omega
      cases ht2 : y.shape j with
      | leaf =>
        rw [ht2] at hp2
        rw [if_neg (junction?_of_shape ht2)]
        exact exists_visit hlocal hact ih hs hp1 hp2 (fun _ ↦ rfl) hsize
      | node l r =>
        rw [ht2] at hp2 hfuel
        simp only [Shape.height] at hfuel
        obtain ⟨a, b, rfl, -⟩ := shape_eq_node ht2
        rw [if_pos (show (two j a b).junction? = some j from rfl)]
        obtain ⟨s', hs', hchange⟩ := exists_two ih hs hp1 (sub_left hp2) hp1 (sub_right hp2) hn
          (by simp only [Shape.height]; omega) (by simp only [Shape.height]; omega)
        rw [hs', Option.bind_some]
        cases once with
        | true => exact ⟨s', rfl, hchange⟩
        | false =>
          have hsize' := hchange.size_le
          rw [← hchange.shape] at hs hp1 hp2 hsize
          obtain ⟨s'', hs'', hchange'⟩ := exists_visit hlocal hact ih hs hp1 hp2
            (fun h ↦ Bool.noConfusion h) (by omega)
          exact ⟨s'', hs'', hchange.trans hchange'⟩

/-! ### The loop -/

/-- The first function keeps the value of every expression, whatever the symbols are. -/
theorem exists_eliminateDups1 (count : Nat) (hj : e.junction? = some j) :
    ∃ s, eliminateDups1 (3 * e.size) j [] [] ⟨e, count⟩ = some s ∧
      Change true j ⟨e, count⟩ s := by
  obtain ⟨l, r, rfl⟩ := exists_of_junction? hj
  refine returns_sweep local_joinAct actSpec_joinAct _ j ⟨two j l r, count⟩ [] [] _ _
    (two j l r).size ?_ rfl rfl (Nat.le_refl _) (by omega)
  rw [shape_two]
  exact Nat.le_add_left 1 _

/-- On its own, the first function of the two comes back with an expression that is no larger and
has the value of the expression in every configuration, `m` included. -/
theorem eliminateDups1_value (count : Nat) (hj : e.junction? = some j) :
    ∃ s, eliminateDups1 (3 * e.size) j [] [] ⟨e, count⟩ = some s ∧ s.root.size ≤ e.size ∧
      (s.root = e ∨ s.root.eliminateYn.size < e.size) ∧
      ∀ env, s.root.calcValue env = e.calcValue env := by
  obtain ⟨s, hs, h⟩ := exists_eliminateDups1 count hj
  refine ⟨s, hs, h.size_le, ?_, h.value rfl⟩
  rcases h.progress with rfl | ⟨-, hset⟩
  · exact .inl rfl
  · exact .inr (Nat.lt_of_lt_of_le (size_eliminateYn_lt hset) h.size_le)

theorem eliminateDups1_value_or :
    let a := symbol (.config (Base.str "A") .tristate)
    let e := two .or a a
    ∃ s, eliminateDups1 (3 * e.size) .or [] [] ⟨e, 0⟩ = some s ∧ s.root.size ≤ e.size ∧
      (s.root = e ∨ s.root.eliminateYn.size < e.size) ∧
      ∀ env, s.root.calcValue env = e.calcValue env := by
  intro a e
  have hj : e.junction? = some .or := rfl
  exact eliminateDups1_value 0 hj

theorem exists_eliminateDups2 (count : Nat) (hj : e.junction? = some j) :
    ∃ s, eliminateDups2 (3 * e.size) j [] [] ⟨e, count⟩ = some s ∧
      Change false j ⟨e, count⟩ s := by
  obtain ⟨l, r, rfl⟩ := exists_of_junction? hj
  refine returns_sweep local_refuteAct actSpec_refuteAct _ j ⟨two j l r, count⟩ [] [] _ _
    (two j l r).size ?_ rfl rfl (Nat.le_refl _) (by omega)
  rw [shape_two]
  exact Nat.le_add_left 1 _

theorem junction?_of_shape_eq {e' : Expr} (hj : e.junction? = some j)
    (h : e'.shape j = e.shape j) : e'.junction? = some j := by
  obtain ⟨l, r, rfl⟩ := exists_of_junction? hj
  rw [shape_two] at h
  obtain ⟨a, b, rfl, -⟩ := shape_eq_node h
  rfl

/-- What a turn of the loop leaves. -/
structure Turn (e : Expr) (s : Dups) : Prop where
  size_le : s.root.size ≤ e.size
  progress : s = ⟨e, 0⟩ ∨ (0 < s.count ∧ ¬ s.root.Settled)
  decided : ∀ env, (e.calcValue env).Decided (s.root.calcValue env)
  kept : ∀ P : Expr → Prop, Hereditary P → P e → P s.root

theorem exists_dupsRound (e : Expr) : ∃ s, dupsRound e = some s ∧ Turn e s := by
  unfold dupsRound
  cases hj : e.junction? with
  | none => exact ⟨_, rfl, Nat.le_refl _, .inl rfl, fun _ ↦ .refl _, fun _ _ h ↦ h⟩
  | some j =>
    obtain ⟨s1, hs1, h1⟩ := exists_eliminateDups1 0 hj
    have hj1 := junction?_of_shape_eq hj h1.shape
    obtain ⟨s2, hs2, h2⟩ := exists_eliminateDups2 s1.count hj1
    refine ⟨s2, ?_, Nat.le_trans h2.size_le h1.size_le, ?_,
      fun env ↦ (h1.decided env).trans (h2.decided env),
      fun P hP h ↦ h2.kept P hP (h1.kept P hP h)⟩
    · simp only [hs1, hj1, Option.bind_eq_bind, Option.bind_some]
      exact hs2
    · rcases h2.progress with rfl | hp2
      · exact h1.progress
      · exact .inr ⟨Nat.lt_of_le_of_lt (Nat.zero_le _) hp2.1, hp2.2⟩

/-- What `expr_eliminate_dups` leaves, as far as one run of the loop tells. -/
structure Eliminated (e r : Expr) : Prop where
  size_le : r.size ≤ e.size
  fixed : dupsRound r = some ⟨r, 0⟩
  decided : ∀ env, (e.calcValue env).Decided (r.calcValue env)
  kept : ∀ P : Expr → Prop, Hereditary P → P e → P r

/-- The loop ends: a turn that changes something leaves a smaller expression. -/
theorem exists_eliminateDupsFuel (n : Nat) (e : Expr) (he : e.size ≤ n) :
    ∃ r, (∀ fuel, n ≤ fuel → eliminateDupsFuel fuel e = some r) ∧ Eliminated e r := by
  induction n generalizing e with
  | zero => exact absurd (size_pos e) (by omega)
  | succ n ih =>
    obtain ⟨s, hs, hturn⟩ := exists_dupsRound e
    have hround (fuel : Nat) : eliminateDupsFuel (fuel + 1) e =
        if s.count = 0 then some s.root else eliminateDupsFuel fuel s.root.eliminateYn := by
      rw [eliminateDupsFuel, hs]
      rfl
    rcases hturn.progress with rfl | ⟨hcount, hset⟩
    · refine ⟨e, fun fuel hfuel ↦ ?_, Nat.le_refl _, hs, fun _ ↦ .refl _, fun _ _ h ↦ h⟩
      obtain ⟨f, rfl⟩ := Nat.exists_eq_add_of_le' (Nat.le_trans (Nat.le_add_left 1 n) hfuel)
      rw [hround]
      exact if_pos rfl
    · have hlt := Nat.lt_of_lt_of_le (size_eliminateYn_lt hset) hturn.size_le
      obtain ⟨r, hr, hres⟩ := ih s.root.eliminateYn (by omega)
      refine ⟨r, fun fuel hfuel ↦ ?_, Nat.le_trans hres.size_le (Nat.le_of_lt hlt), hres.fixed,
        fun env ↦ ?_, fun P hP h ↦ hres.kept P hP (hP.eliminateYn (hturn.kept P hP h))⟩
      · obtain ⟨f, rfl⟩ := Nat.exists_eq_add_of_le' (Nat.le_trans (Nat.le_add_left 1 n) hfuel)
        rw [hround, if_neg (Nat.ne_of_gt hcount)]
        exact hr f (by omega)
      · have h := hres.decided env
        rw [calcValue_eliminateYn] at h
        exact (hturn.decided env).trans h

/-- `expr_eliminate_dups`. -/
def eliminateDups (e : Expr) : Expr := (eliminateDupsFuel e.size e).getD e

theorem eliminateDupsFuel_eq (e : Expr) :
    (∀ fuel, e.size ≤ fuel → eliminateDupsFuel fuel e = some e.eliminateDups) ∧
      Eliminated e e.eliminateDups := by
  obtain ⟨r, hr, hres⟩ := exists_eliminateDupsFuel e.size e (Nat.le_refl _)
  have he : e.eliminateDups = r := by
    rw [eliminateDups, hr e.size (Nat.le_refl _)]
    rfl
  rw [he]
  exact ⟨hr, hres⟩

theorem eliminated_eliminateDups (e : Expr) : Eliminated e e.eliminateDups :=
  (eliminateDupsFuel_eq e).2

/-- `expr_eliminate_dups` comes back for every expression, with one that is no larger and has the
value of the expression in every configuration in which that is not `m`. -/
theorem eliminateDups_value (e : Expr) :
    (∀ fuel, e.size ≤ fuel → eliminateDupsFuel fuel e = some e.eliminateDups) ∧
      e.eliminateDups.size ≤ e.size ∧
      ∀ env, e.calcValue env = .mod ∨ e.eliminateDups.calcValue env = e.calcValue env := by
  obtain ⟨hreturns, h⟩ := eliminateDupsFuel_eq e
  exact ⟨hreturns, h.size_le, fun env ↦ (h.decided env).symm⟩

/-- A configuration with one tristate symbol, and every other symbol `n`. -/
def oneTristate (name : Base.Bytes) (v : Tristate) : Env where
  tri s :=
    if s = .config name .tristate then v
    else if s = .yes then .yes
    else if s = .mod then .mod
    else .no
  str s :=
    match s with
    | .const name => name
    | s => if s = .config name .tristate then v.text else Tristate.no.text
  tri_yes := by simp [Symbol.yes]
  tri_mod := by simp [Symbol.mod, Symbol.yes, Base.str]
  tri_no := by simp [Symbol.no, Symbol.mod, Symbol.yes, Base.str]
  str_const _ := rfl
  tri_boolean s hs := by
    split_ifs with h1 h2 h3
    · subst h1
      simp [Symbol.type] at hs
    · simp
    · subst h3
      simp [Symbol.type, Symbol.mod] at hs
    · simp
  str_text s hs := by
    rcases s with n | ⟨n, t⟩ | ⟨i, t⟩
    · simp [Symbol.type] at hs
    · by_cases h : n = name ∧ t = .tristate <;> simp [h, Symbol.yes, Symbol.mod]
    · simp [Symbol.yes, Symbol.mod]

/-- With a symbol that is `m` the value `m` of `(a || b) && !a && !b` is lost: it gets `n`. -/
theorem eliminateDups_mod :
    let a := symbol (.config (Base.str "A") .tristate)
    let b := symbol (.config (Base.str "B") .tristate)
    let e := two .and (two .and (two .or a b) (not a)) (not b)
    e.calcValue (oneTristate (Base.str "A") .mod) = .mod ∧
      e.eliminateDups.calcValue (oneTristate (Base.str "A") .mod) = .no := by
  decide +kernel

end MotionPie.Support.Kconfig.Expr
