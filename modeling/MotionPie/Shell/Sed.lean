import Mathlib.Data.List.Infix
import MotionPie.Shell.Text

/-!
# sed

A sed script that looks at one line at a time, and two substitutions on a line. The script
keeps the terminators: a last line without one gets none.
-/

namespace MotionPie.Shell

open Base

/-- `sed -i`, for what the script does to a line. `none` is a line that is deleted. -/
def sed (f : Bytes → Option Bytes) (s : Bytes) : Bytes :=
  (readlines s).flatMap fun l ↦ ((f (chomp l)).map (· ++ l.drop (chomp l).length)).getD []

/-- `s/b+/b/`: the first run of a byte becomes one byte. -/
def squeezeRun (b : UInt8) (l : Bytes) : Bytes :=
  match l.dropWhile (· ≠ b) with
  | [] => l
  | _ :: s => l.takeWhile (· ≠ b) ++ b :: s.dropWhile (· = b)

/-- `s/ab/a/`: the first `b` that follows an `a` goes. -/
def dropBehind (a b : UInt8) : Bytes → Bytes
  | x :: y :: s => if x = a ∧ y = b then x :: s else x :: dropBehind a b (y :: s)
  | s => s

/-! ### Lines -/

/-- The text behind the last terminator, as a line if there is one. -/
def rest (r : Bytes) : List Bytes := if r = [] then [] else [r]

/-- Every text is a number of lines and a rest. -/
theorem exists_unlines (s : Bytes) :
    ∃ ls r, (∀ l ∈ ls, newline ∉ l) ∧ newline ∉ r ∧ s = unlines ls ++ r := by
  induction s with
  | nil => exact ⟨[], [], by simp, by simp, rfl⟩
  | cons b s ih =>
    obtain ⟨ls, r, hls, hr, rfl⟩ := ih
    by_cases hb : b = newline
    · exact ⟨[] :: ls, r, by simpa using hls, hr, by simp [hb, unlines]⟩
    · cases ls with
      | nil => exact ⟨[], b :: r, by simp, by simp [Ne.symm hb, hr], rfl⟩
      | cons l ls =>
        refine ⟨(b :: l) :: ls, r, ?_, hr, by simp [unlines]⟩
        simpa [Ne.symm hb] using hls

/-- A text without a terminator. -/
theorem readlines_rest {r : Bytes} (hr : newline ∉ r) : readlines r = rest r := by
  induction r with
  | nil => rfl
  | cons b r ih =>
    simp only [List.mem_cons, not_or] at hr
    rw [readlines, if_neg (Ne.symm hr.1), ih hr.2]
    cases r <;> rfl

/-- The lines of a text with their terminators, the rest included. -/
theorem readlines_unlines_append {ls : List Bytes} (hls : ∀ l ∈ ls, newline ∉ l)
    {r : Bytes} (hr : newline ∉ r) :
    readlines (unlines ls ++ r) = ls.map (· ++ [newline]) ++ rest r := by
  induction ls with
  | nil => exact readlines_rest hr
  | cons l ls ih =>
    rw [List.forall_mem_cons] at hls
    have hcons : unlines (l :: ls) ++ r = l ++ newline :: (unlines ls ++ r) := by simp [unlines]
    rw [hcons, readlines_append_newline hls.1, ih hls.2]
    rfl

/-- A line without its terminator. -/
theorem chomp_append (l : Bytes) : chomp (l ++ [newline]) = l := by simp [chomp]

/-- A line that has no terminator. -/
theorem chomp_eq_self {l : Bytes} (hl : newline ∉ l) : chomp l = l := by
  rw [chomp, if_neg]
  exact fun h ↦ hl (List.mem_of_getLast? h)

/-- The lines of a text, the rest included. -/
theorem lines_unlines_append {ls : List Bytes} (hls : ∀ l ∈ ls, newline ∉ l) {r : Bytes}
    (hr : newline ∉ r) : lines (unlines ls ++ r) = ls ++ rest r := by
  have hrest : (rest r).map chomp = rest r := by
    unfold rest
    split
    · rfl
    · rw [List.map_singleton, chomp_eq_self hr]
  have hself : (ls.map (· ++ [newline])).map chomp = ls := by
    rw [List.map_map]
    exact List.map_id'' chomp_append ls
  rw [lines, readlines_unlines_append hls hr, List.map_append, hself, hrest]

/-- A script edits line by line. -/
theorem sed_unlines_append (f : Bytes → Option Bytes) {ls : List Bytes}
    (hls : ∀ l ∈ ls, newline ∉ l) {r : Bytes} (hr : newline ∉ r) :
    sed f (unlines ls ++ r) = unlines (ls.filterMap f) ++ ((rest r).filterMap f).flatten := by
  rw [sed, readlines_unlines_append hls hr, List.flatMap_append]
  congr 1
  · clear hls
    induction ls with
    | nil => rfl
    | cons l ls ih =>
      rw [List.map_cons, List.flatMap_cons, ih, chomp_append, List.filterMap_cons]
      cases f l with
      | none => rfl
      | some k => simp [unlines]
  · unfold rest
    split
    · rfl
    · rw [List.flatMap_singleton, chomp_eq_self hr, List.drop_length]
      cases hf : f r <;> simp [hf]

/-- The lines after a script that makes no line empty and ends none early. -/
theorem lines_sed {f : Bytes → Option Bytes}
    (hf : ∀ l k, newline ∉ l → f l = some k → newline ∉ k ∧ (k = [] → l = [])) (s : Bytes) :
    lines (sed f s) = (lines s).filterMap f := by
  obtain ⟨ls, r, hls, hr, rfl⟩ := exists_unlines s
  have hls' : ∀ k ∈ ls.filterMap f, newline ∉ k := by
    intro k hk
    obtain ⟨l, hl, hfl⟩ := List.mem_filterMap.mp hk
    exact (hf l k (hls l hl) hfl).1
  rw [sed_unlines_append f hls hr, lines_unlines_append hls hr, List.filterMap_append]
  by_cases hnil : r = []
  · simp only [rest, hnil, if_true, List.filterMap_nil, List.flatten_nil, List.append_nil]
    exact lines_unlines hls'
  · simp only [rest, hnil, if_false]
    cases hfr : f r with
    | none =>
      simp only [List.filterMap_cons_none hfr, List.filterMap_nil, List.flatten_nil,
        List.append_nil]
      exact lines_unlines hls'
    | some k =>
      obtain ⟨hk, hne⟩ := hf r k hr hfr
      simp only [List.filterMap_cons_some hfr, List.filterMap_nil, List.flatten_singleton]
      rw [lines_unlines_append hls' hk, rest, if_neg fun h ↦ hnil (hne h)]

/-- `/p/d`, on a list of lines. -/
theorem filterMap_delete (p : Bytes → Bool) (ls : List Bytes) :
    ls.filterMap (fun l ↦ if p l then none else some l) = ls.filter (!p ·) := by
  induction ls with
  | nil => rfl
  | cons l ls ih =>
    rw [List.filterMap_cons, ih]
    by_cases hl : p l = true <;> simp [hl]

/-- `/p/d`: what it leaves of a last line without a terminator gets none. -/
theorem sed_delete_unlines_append (p : Bytes → Bool) {ls : List Bytes}
    (hls : ∀ l ∈ ls, newline ∉ l) {r : Bytes} (hr : newline ∉ r) :
    sed (fun l ↦ if p l then none else some l) (unlines ls ++ r) =
      unlines (ls.filter (!p ·)) ++ if p r then [] else r := by
  rw [sed_unlines_append _ hls hr, filterMap_delete, filterMap_delete]
  congr 1
  unfold rest
  by_cases hnil : r = []
  · simp [hnil]
  · by_cases hp : p r = true <;> simp [hnil, hp]

/-- The lines that `/p/d` leaves. -/
theorem lines_sed_delete (p : Bytes → Bool) (s : Bytes) :
    lines (sed (fun l ↦ if p l then none else some l) s) = (lines s).filter (!p ·) := by
  rw [lines_sed, filterMap_delete]
  intro l k hl hk
  split at hk
  · cases hk
  · obtain rfl := Option.some.inj hk
    exact ⟨hl, id⟩

/-! ### Substitutions -/

/-- The first run of the byte is one byte, and no `b` follows an `a`. -/
def Settled (a b : UInt8) (l : Bytes) : Prop :=
  ((l.dropWhile (· ≠ b)).takeWhile (· = b)).length ≤ 1 ∧ ¬ [a, b] <:+: l

instance (a b : UInt8) (l : Bytes) : Decidable (Settled a b l) :=
  inferInstanceAs (Decidable (_ ∧ _))

variable {a b : UInt8}

/-- A run may start later. -/
theorem squeezeRun_append_of_notMem {h : Bytes} (hb : b ∉ h) (l : Bytes) :
    squeezeRun b (h ++ l) = h ++ squeezeRun b l := by
  have hall := forall_ne hb
  unfold squeezeRun
  rw [List.dropWhile_append_of_pos hall, List.takeWhile_append_of_pos hall]
  cases l.dropWhile (· ≠ b) with
  | nil => rfl
  | cons c s => exact List.append_assoc _ _ _

/-- Without the byte there is no run. -/
theorem squeezeRun_of_notMem {l : Bytes} (hb : b ∉ l) : squeezeRun b l = l := by
  have hnil := squeezeRun_append_of_notMem hb []
  rwa [List.append_nil, show squeezeRun b [] = [] from rfl, List.append_nil] at hnil

/-- A run that is one byte stays, whatever comes later. -/
theorem squeezeRun_append_of_mem {h : Bytes} (hb : b ∈ h) (hlast : h.getLast? ≠ some b)
    (hrun : ((h.dropWhile (· ≠ b)).takeWhile (· = b)).length ≤ 1) (l : Bytes) :
    squeezeRun b (h ++ l) = h ++ l := by
  obtain ⟨x, y, rfl, hx⟩ := List.eq_append_cons_of_mem hb
  have hall := forall_ne hx
  cases y with
  | nil => simp at hlast
  | cons c y =>
    have hdrop : (x ++ b :: c :: y).dropWhile (· ≠ b) = b :: c :: y := by
      rw [List.dropWhile_append_of_pos hall, List.dropWhile_cons_of_neg (by simp)]
    have hc : c ≠ b := by
      rintro rfl
      rw [hdrop] at hrun
      simp at hrun
    rw [List.append_assoc, squeezeRun_append_of_notMem hx]
    simp [squeezeRun, hc]

/-- A run ends before another byte. -/
theorem squeezeRun_append_cons {l : Bytes} (hb : b ∈ l) (ha : a ≠ b) (s : Bytes) :
    squeezeRun b (l ++ a :: s) = squeezeRun b l ++ a :: s := by
  obtain ⟨x, y, rfl, hx⟩ := List.eq_append_cons_of_mem hb
  have hrun : ∀ t, squeezeRun b (b :: t) = b :: t.dropWhile (· = b) := by simp [squeezeRun]
  rw [List.append_assoc, squeezeRun_append_of_notMem hx, squeezeRun_append_of_notMem hx,
    List.cons_append, hrun, hrun, List.dropWhile_append]
  split
  · next hnil =>
    rw [List.isEmpty_iff.mp hnil, List.dropWhile_cons_of_neg (by simpa using ha)]
    simp
  · simp

/-- A settled line has no run to squeeze. -/
theorem Settled.squeezeRun {l : Bytes} (h : Settled a b l) : squeezeRun b l = l := by
  by_cases hb : b ∈ l
  · obtain ⟨x, y, rfl, hx⟩ := List.eq_append_cons_of_mem hb
    have hall := forall_ne hx
    have hrun := h.1
    rw [List.dropWhile_append_of_pos hall, List.dropWhile_cons_of_neg (by simp)] at hrun
    have hy : y.dropWhile (· = b) = y := by
      cases y with
      | nil => rfl
      | cons c y =>
        have hc : c ≠ b := by
          rintro rfl
          simp at hrun
        rw [List.dropWhile_cons_of_neg (by simpa using hc)]
    rw [squeezeRun_append_of_notMem hx]
    simp [Shell.squeezeRun, hy]
  · exact squeezeRun_of_notMem hb

/-- What has no `b` behind an `a` stays. -/
theorem dropBehind_append {h : Bytes} (hno : ¬ [a, b] <:+: h ++ [a]) (l : Bytes) :
    dropBehind a b (h ++ a :: l) = h ++ dropBehind a b (a :: l) := by
  induction h with
  | nil => rfl
  | cons x h ih =>
    rw [List.cons_append, List.infix_cons_iff, not_or] at hno
    have hstep : ∀ y s, h ++ a :: l = y :: s → ¬ (x = a ∧ y = b) := by
      rintro y s hys ⟨rfl, rfl⟩
      apply hno.1
      cases h with
      | nil =>
        obtain rfl : x = y := (List.cons.inj hys).1
        simp
      | cons z h =>
        obtain rfl : z = y := (List.cons.inj hys).1
        simp
    obtain ⟨y, s, hys⟩ := List.exists_cons_of_ne_nil (l := h ++ a :: l) (by simp)
    rw [List.cons_append, hys, dropBehind, if_neg (hstep y s hys), ← hys, ih hno.2]
    rfl

/-- A settled line has no `b` to drop. -/
theorem dropBehind_eq_self {l : Bytes} (hno : ¬ [a, b] <:+: l) : dropBehind a b l = l := by
  induction l with
  | nil => rfl
  | cons x l ih =>
    rw [List.infix_cons_iff, not_or] at hno
    cases l with
    | nil => rfl
    | cons y s =>
      have hxy : ¬ (x = a ∧ y = b) := by
        rintro ⟨rfl, rfl⟩
        exact hno.1 (by simp)
      rw [dropBehind, if_neg hxy, ih hno.2]

/-- A substitution adds no byte. -/
theorem mem_of_mem_squeezeRun {l : Bytes} {c : UInt8} (hc : c ∈ squeezeRun b l) : c ∈ l := by
  by_cases hb : b ∈ l
  · obtain ⟨x, y, rfl, hx⟩ := List.eq_append_cons_of_mem hb
    rw [squeezeRun_append_of_notMem hx] at hc
    simp only [squeezeRun, List.mem_append, ne_eq, not_true_eq_false, decide_false,
      Bool.false_eq_true, not_false_eq_true, List.dropWhile_cons_of_neg, List.mem_cons,
      List.takeWhile_cons_of_neg, List.nil_append] at hc ⊢
    rcases hc with hc | hc | hc
    · exact .inl hc
    · exact .inr (.inl hc)
    · exact .inr (.inr ((List.dropWhile_suffix _).subset hc))
  · rwa [squeezeRun_of_notMem hb] at hc

/-- A substitution adds no byte. -/
theorem mem_of_mem_dropBehind {l : Bytes} {c : UInt8} (hc : c ∈ dropBehind a b l) : c ∈ l := by
  fun_induction dropBehind a b l with
  | case1 x y s hxy =>
    rcases List.mem_cons.mp hc with rfl | hc
    · exact List.mem_cons_self
    · exact List.mem_cons_of_mem _ (List.mem_cons_of_mem _ hc)
  | case2 x y s hxy ih =>
    rcases List.mem_cons.mp hc with rfl | hc
    · exact List.mem_cons_self
    · exact List.mem_cons_of_mem _ (ih hc)
  | case3 s hs => exact hc

/-- A substitution leaves a byte of a line. -/
theorem squeezeRun_eq_nil {l : Bytes} : squeezeRun b l = [] ↔ l = [] := by
  unfold squeezeRun
  split
  · rfl
  · next c s hs =>
    have hl : l ≠ [] := by
      rintro rfl
      cases hs
    simp [hl]

/-- A substitution leaves a byte of a line. -/
theorem dropBehind_eq_nil {l : Bytes} : dropBehind a b l = [] ↔ l = [] := by
  fun_cases dropBehind a b l with
  | case1 x y s hxy => simp
  | case2 x y s hxy => simp
  | case3 s hs => rfl

end MotionPie.Shell
