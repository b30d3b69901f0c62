import MotionPie.Support.Kconfig.ExtractEq
import MotionPie.Support.Kconfig.Positions

/-!
# Taking out what is there twice

`expr_eliminate_dups` compares every operand of a conjunction or a disjunction with every other
one, and each operand that is a disjunction or a conjunction with itself before. It goes on until
a round changes nothing.
-/

namespace MotionPie.Support.Kconfig.Expr

variable {env : Env} {j k : Junction} {e x y root : Expr} {p p1 p2 q : Path} {fuel : Nat}

/-- The expression that is rewritten in place, and `trans_count`. -/
structure Dups where
  root : Expr
  count : Nat

/-- What is done with two nodes: `type`, the type of the first node, the pointers. -/
abbrev Act := Junction → Option Junction → Path → Path → Dups → Option Dups

/-- The end of the two functions: nothing for one node, and before `act` the operands of the first
node among themselves, `support/kconfig/expr.c` lines 520–528 and 571–576. -/
def visit (act : Act) (again : Junction → Path → Path → Dups → Option Dups) (type : Junction)
    (p1 p2 : Path) (s : Dups) : Option Dups :=
  if p1 = p2 then some s
  else do
    let e1 ← s.root.get? p1
    let s ← e1.junction?.elim (some s) fun k ↦ again k p1 p1 s
    act type e1.junction? p1 p2 s

/-- What `expr_eliminate_dups1` and `expr_eliminate_dups2` have in common. `once` says whether a
node `e2` that has the type is done when its operands are. -/
def sweep (once : Bool) (act : Act) : Nat → Junction → Path → Path → Dups → Option Dups
  | 0, _, _, _, _ => none
  | fuel + 1, type, p1, p2, s => do
    let e1 ← s.root.get? p1
    if e1.junction? = some type then
      sweep once act fuel type (p1 ++ [false]) p2 s >>=
        sweep once act fuel type (p1 ++ [true]) p2
    else
      let e2 ← s.root.get? p2
      if e2.junction? = some type then
        sweep once act fuel type p1 (p2 ++ [false]) s >>=
          sweep once act fuel type p1 (p2 ++ [true]) >>= fun s ↦
            if once then some s else visit act (sweep once act fuel) type p1 p2 s
      else visit act (sweep once act fuel) type p1 p2 s

/-- The last part of `expr_eliminate_dups1`, `support/kconfig/expr.c` lines 530–551. -/
def joinAct : Act := fun type _ p1 p2 s ↦ do
  let e1 ← s.root.get? p1
  let e2 ← s.root.get? p2
  match join type e1 e2 with
  | some tmp => some ⟨(s.root.put p1 (symbol type.symbol)).put p2 tmp, s.count + 1⟩
  | none => some s

/-- `expr_eliminate_dups1`, `support/kconfig/expr.c` lines 504–554. -/
def eliminateDups1 : Nat → Junction → Path → Path → Dups → Option Dups := sweep true joinAct

/-- The last part of `expr_eliminate_dups2`, `support/kconfig/expr.c` lines 577–604. -/
def refuteAct : Act := fun _ kind p1 p2 s ↦
  match kind with
  | none => some s
  | some k => do
    let e1 ← s.root.get? p1
    let e2 ← s.root.get? p2
    if refutes k e1 e2 then some ⟨s.root.put p1 (symbol k.symbol), s.count + 1⟩ else some s

/-- `expr_eliminate_dups2`, `support/kconfig/expr.c` lines 556–610. -/
def eliminateDups2 : Nat → Junction → Path → Path → Dups → Option Dups := sweep false refuteAct

/-- One turn of the loop of `expr_eliminate_dups`, `support/kconfig/expr.c` lines 620–627, with
three calls inside each other for every node. -/
def dupsRound (e : Expr) : Option Dups :=
  match e.junction? with
  | none => some ⟨e, 0⟩
  | some type => do
    let s ← eliminateDups1 (3 * e.size) type [] [] ⟨e, 0⟩
    let type ← s.root.junction?
    eliminateDups2 (3 * s.root.size) type [] [] s

/-- `expr_eliminate_dups`, `support/kconfig/expr.c` lines 612–634, for as many turns of the loop
as there is fuel. -/
def eliminateDupsFuel : Nat → Expr → Option Expr
  | 0, _ => none
  | fuel + 1, e => do
    let s ← dupsRound e
    if s.count = 0 then some s.root else eliminateDupsFuel fuel s.root.eliminateYn

/-! ### What is done below a node is done in the whole -/

/-- The state when the expression is a part of another one. -/
def Dups.below (root : Expr) (q : Path) (s : Dups) : Dups := ⟨root.put q s.root, s.count⟩

/-- The act sees only what is below a node that both paths go through. -/
def Local (act : Act) : Prop :=
  ∀ type kind root q y p1 p2 s, root.get? q = some y →
    act type kind (q ++ p1) (q ++ p2) (s.below root q) =
      (act type kind p1 p2 s).map (Dups.below root q)

theorem get?_below (hq : root.get? q = some y) (s : Dups) (p : Path) :
    (s.below root q).root.get? (q ++ p) = s.root.get? p := by
  rw [Dups.below, get?_append, get?_put hq, Option.bind_some]

theorem put_below (hq : root.get? q = some y) (s : Dups) (p : Path) (x : Expr) :
    (s.below root q).root.put (q ++ p) x = root.put q (s.root.put p x) := by
  rw [Dups.below, put_append (get?_put hq), put_put]

theorem local_joinAct : Local joinAct := by
  intro type kind root q y p1 p2 s hq
  simp only [joinAct, get?_below hq]
  cases s.root.get? p1 with
  | none => rfl
  | some e1 =>
    cases s.root.get? p2 with
    | none => rfl
    | some e2 =>
      simp only [Option.bind_eq_bind, Option.bind_some]
      cases join type e1 e2 with
      | none => rfl
      | some tmp =>
        have h := put_below hq ⟨s.root.put p1 (symbol type.symbol), s.count⟩ p2 tmp
        simp only [Dups.below] at h
        simp only [put_below hq, h, Option.map_some]
        rfl

theorem local_refuteAct : Local refuteAct := by
  intro type kind root q y p1 p2 s hq
  cases kind with
  | none => rfl
  | some k =>
    simp only [refuteAct, get?_below hq]
    cases s.root.get? p1 with
    | none => rfl
    | some e1 =>
      cases s.root.get? p2 with
      | none => rfl
      | some e2 =>
        simp only [Option.bind_eq_bind, Option.bind_some]
        split_ifs
        · simp only [put_below hq, Option.map_some]
          rfl
        · rfl

theorem local_visit {act : Act} (hact : Local act)
    {again : Junction → Path → Path → Dups → Option Dups}
    (hagain : ∀ k p s, again k (q ++ p) (q ++ p) (s.below root q) =
      (again k p p s).map (Dups.below root q))
    (hq : root.get? q = some y) (type : Junction) (p1 p2 : Path) (s : Dups) :
    visit act again type (q ++ p1) (q ++ p2) (s.below root q) =
      (visit act again type p1 p2 s).map (Dups.below root q) := by
  simp only [visit, List.append_cancel_left_eq, get?_below hq, Option.bind_eq_bind]
  split_ifs
  · rfl
  · cases s.root.get? p1 with
    | none => rfl
    | some e1 =>
      simp only [Option.bind_some]
      cases e1.junction? with
      | none => exact hact _ _ _ _ _ _ _ _ hq
      | some k =>
        simp only [Option.elim_some]
        rw [hagain k p1 s]
        cases again k p1 p1 s with
        | none => rfl
        | some s' => exact hact _ _ _ _ _ _ _ _ hq

theorem local_sweep {once : Bool} {act : Act} (hact : Local act) (hq : root.get? q = some y)
    (type : Junction) (p1 p2 : Path) (s : Dups) :
    sweep once act fuel type (q ++ p1) (q ++ p2) (s.below root q) =
      (sweep once act fuel type p1 p2 s).map (Dups.below root q) := by
  induction fuel generalizing type p1 p2 s with
  | zero => rfl
  | succ fuel ih =>
    -- two calls one after the other
    have htwo (a b a' b' : Path) (s : Dups) :
        (sweep once act fuel type (q ++ a) (q ++ b) (s.below root q)).bind
            (sweep once act fuel type (q ++ a') (q ++ b')) =
          ((sweep once act fuel type a b s).bind (sweep once act fuel type a' b')).map
            (Dups.below root q) := by
      rw [ih type a b s]
      cases sweep once act fuel type a b s with
      | none => rfl
      | some s' => exact ih type a' b' s'
    have hvisit := local_visit hact (fun k p s ↦ ih k p p s) hq type
    simp only [sweep, get?_below hq, Option.bind_eq_bind, List.append_assoc]
    cases s.root.get? p1 with
    | none => rfl
    | some e1 =>
      simp only [Option.bind_some]
      split_ifs with h1 h2
      · exact htwo _ _ _ _ s
      · cases s.root.get? p2 with
        | none => rfl
        | some e2 =>
          simp only [Option.bind_some]
          split_ifs
          · rw [htwo]
            cases (sweep once act fuel type p1 (p2 ++ [false]) s).bind
              (sweep once act fuel type p1 (p2 ++ [true])) <;> rfl
          · exact hvisit p1 p2 s
      · cases s.root.get? p2 with
        | none => rfl
        | some e2 =>
          simp only [Option.bind_some]
          split_ifs
          · rw [htwo]
            cases (sweep once act fuel type p1 (p2 ++ [false]) s).bind
              (sweep once act fuel type p1 (p2 ++ [true])) with
            | none => rfl
            | some s' => exact hvisit p1 p2 s'
          · exact hvisit p1 p2 s

end MotionPie.Support.Kconfig.Expr
