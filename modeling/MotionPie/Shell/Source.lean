import Mathlib.Data.List.Infix
import Mathlib.Logic.Function.Basic
import MotionPie.Shell.Text

/-!
# Sourcing a file of assignments

What `source` does with a file that only sets variables: comments, `NAME=word` and
`NAME="text"`. The result is `none` for a line that is anything else, such as a command, a
command substitution or a text that does not end with its line.
-/

namespace MotionPie.Shell

open Base

/-- The values of the variables and of the special parameters, empty for those not set. -/
abbrev Vars := Bytes → Bytes

/-! ### Words -/

/-- A byte that a backslash takes the meaning from, between double quotes. -/
def isActive (b : UInt8) : Bool := b = 34 || b = 36 || b = 92 || b = 96

/-- The name of a special parameter that is no digit. -/
def isSpecial (b : UInt8) : Bool :=
  b = 33 || b = 35 || b = 36 || b = 42 || b = 45 || b = 63 || b = 64

/-- The parameter that is named behind a dollar sign. -/
def parameter : Bytes → Option Bytes
  | [] => none
  | b :: s =>
    if isDigit b || isSpecial b then some [b]
    else if isWord b then some (b :: s.takeWhile isWord)
    else none

/-- Whether a command, an expression or a longer expansion follows a dollar sign. -/
def opens (s : Bytes) : Bool := s.head?.any fun b ↦ b = 40 || b = 91 || b = 123

/-- The text up to the closing double quote, and what follows the quote. The number is how many
bytes have been taken already. -/
def quoted (vars : Vars) : Nat → Bytes → Option (Bytes × Bytes)
  | _, [] => none
  | k + 1, _ :: s => quoted vars k s
  | 0, b :: s =>
    let text (v : Bytes) (r : Option (Bytes × Bytes)) := r.map fun t ↦ (v ++ t.1, t.2)
    if b = 34 then some ([], s)
    else if b = 96 then none
    else if b = 92 then
      match s with
      | [] => none
      | c :: _ => if isActive c then text [c] (quoted vars 1 s) else text [b] (quoted vars 0 s)
    else if b = 36 then
      if opens s then none
      else match parameter s with
        | some n => text (vars n) (quoted vars n.length s)
        | none => text [b] (quoted vars 0 s)
    else text [b] (quoted vars 0 s)

/-- A line of the file. -/
def assignLine (vars : Vars) (line : Bytes) : Option Vars :=
  if line = [] ∨ line.head? = some 35 then some vars
  else
    let name := line.takeWhile isWord
    if name = [] ∨ name.head?.any isDigit then none
    else match line.dropWhile isWord with
      | 61 :: 34 :: t =>
        match quoted vars 0 t with
        | some (v, []) => some (Function.update vars name v)
        | _ => none
      | 61 :: v => if v.all isPlain then some (Function.update vars name v) else none
      | _ => none

/-- `source`. The shell leaves out NULs. -/
def source (vars : Vars) (content : Bytes) : Option Vars :=
  (lines (content.filter (· ≠ 0))).foldlM assignLine vars

/-- Assignments, one after the other. -/
def setVars (vars : Vars) (assignments : List (Bytes × Bytes)) : Vars :=
  assignments.foldl (fun vars a ↦ Function.update vars a.1 a.2) vars

/-- A byte that separates words. -/
def isBlank (b : UInt8) : Bool := b = 32 || b = 9 || b = newline

/-- The words of an unquoted expansion. -/
def splitWords (s : Bytes) : List Bytes := (s.splitOnP isBlank).filter (· ≠ [])

/-- Which words pathname expansion takes for patterns. A pattern has one of the bytes `*`, `?`
and `[` in it. -/
structure Globbing where
  isPattern : Bytes → Bool
  special : ∀ w, isPattern w = true → 42 ∈ w ∨ 63 ∈ w ∨ 91 ∈ w

/-- Every word with one of the three bytes is taken for a pattern. -/
def anyPattern : Globbing where
  isPattern w := decide (42 ∈ w) || decide (63 ∈ w) || decide (91 ∈ w)
  special w hw := by simpa [or_assoc] using hw

/-- Pathname expansion of a word, for the names of the files that match it. -/
def expand (g : Globbing) (names : Bytes → List Bytes) (w : Bytes) : List Bytes :=
  if g.isPattern w && !(names w).isEmpty then names w else [w]

/-! ### Text between double quotes -/

/-- Whether the byte at the start stands for itself between double quotes. -/
def plainHead : Bytes → Bool
  | [] => true
  | b :: s =>
    if b = 34 ∨ b = 96 then false
    else if b = 92 then s.head?.any fun c ↦ !isActive c
    else if b = 36 then !opens s && (parameter s).isNone
    else true

/-- A text that stands for itself between double quotes. -/
def Literal (s : Bytes) : Prop := ∀ t ∈ s.tails, plainHead t = true

/-- No variable has an active byte or a NUL in its value. -/
def Clean (vars : Vars) : Prop := ∀ n, ∀ b ∈ vars n, isActive b = false ∧ b ≠ 0

variable {vars : Vars}

/-- A text stands for itself if its first byte and the rest do. -/
theorem literal_cons {b : UInt8} {s : Bytes} :
    Literal (b :: s) ↔ plainHead (b :: s) = true ∧ Literal s := by
  simp [Literal]

/-- A text without active bytes stands for itself. -/
theorem literal_of_inactive {s : Bytes} (h : ∀ b ∈ s, isActive b = false) : Literal s := by
  intro t ht
  rw [List.mem_tails] at ht
  cases t with
  | nil => rfl
  | cons b t =>
    have hb := h b (ht.subset List.mem_cons_self)
    simp only [isActive, Bool.or_eq_false_iff, decide_eq_false_iff_not] at hb
    simp [plainHead, hb]

/-- A plain byte has no meaning for the shell. -/
theorem inactive_of_isPlain {b : UInt8} (hb : isPlain b = true) : isActive b = false ∧ b ≠ 0 := by
  constructor
  · by_contra hactive
    simp only [isActive, Bool.not_eq_false, Bool.or_eq_true, decide_eq_true_eq] at hactive
    rcases hactive with ((rfl | rfl) | rfl) | rfl <;> exact absurd hb (by decide)
  · rintro rfl
    exact absurd hb (by decide)

/-- A plain word stands for itself. -/
theorem literal_of_isPlain {s : Bytes} (h : ∀ b ∈ s, isPlain b = true) : Literal s :=
  literal_of_inactive fun b hb ↦ (inactive_of_isPlain (h b hb)).1

/-- The closing quote does not change the meaning of a byte before it. -/
theorem plainHead_append (b : UInt8) (t r : Bytes) :
    plainHead (b :: t ++ 34 :: r) = plainHead (b :: t) := by
  cases t with
  | nil => simp [plainHead, opens, parameter, isActive, isDigit, isSpecial, isWord]
  | cons c t =>
    have hparameter : (parameter (c :: t ++ 34 :: r)).isNone = (parameter (c :: t)).isNone := by
      simp only [parameter, List.cons_append]
      split
      · rfl
      · split <;> rfl
    simp only [plainHead, List.cons_append, List.head?_cons, opens] at hparameter ⊢
    rw [hparameter]

/-- A byte that stands for itself is taken. -/
theorem quoted_cons {b : UInt8} {s : Bytes} (h : plainHead (b :: s) = true) :
    quoted vars 0 (b :: s) = (quoted vars 0 s).map fun t ↦ (b :: t.1, t.2) := by
  simp only [plainHead] at h
  simp only [quoted]
  split at h
  · cases h
  · next hend =>
    rw [not_or] at hend
    simp only [if_neg hend.1, if_neg hend.2]
    split at h
    · next hb =>
      cases s with
      | nil => cases h
      | cons c s =>
        have hc : isActive c = false := by simpa using h
        simp [hb, hc]
    · next hb =>
      rw [if_neg hb]
      split at h
      · next hdollar =>
        simp only [Bool.and_eq_true, Bool.not_eq_true', Option.isNone_iff_eq_none] at h
        simp [hdollar, h.1, h.2]
      · next hdollar => simp [hdollar]

/-- A text that stands for itself is taken as it is. -/
theorem quoted_literal {t : Bytes} (h : Literal t) (r : Bytes) :
    quoted vars 0 (t ++ 34 :: r) = some (t, r) := by
  induction t with
  | nil => rfl
  | cons b t ih =>
    rw [literal_cons] at h
    rw [List.cons_append, quoted_cons (by rw [← List.cons_append, plainHead_append]; exact h.1),
      ih h.2]
    rfl

/-- What is known of the value of a text. -/
structure Value (t v : Bytes) : Prop where
  active : v.countP isActive ≤ t.countP isActive
  literal : t.countP isActive ≤ v.countP isActive → Literal t ∧ v = t
  nul : 0 ∉ t → 0 ∉ v

/-- A byte that stands for itself in front. -/
theorem Value.cons {b : UInt8} {t v : Bytes} (hb : plainHead (b :: t) = true) (h : Value t v) :
    Value (b :: t) (b :: v) where
  active := by
    have hactive := h.active
    simp only [List.countP_cons]
    omega
  literal hcount := by
    simp only [List.countP_cons] at hcount
    obtain ⟨hliteral, rfl⟩ := h.literal (by omega)
    exact ⟨literal_cons.mpr ⟨hb, hliteral⟩, rfl⟩
  nul hnul := by
    rw [List.mem_cons, not_or] at hnul ⊢
    exact ⟨hnul.1, h.nul hnul.2⟩

/-- A text in front that loses an active byte. -/
theorem Value.append {s u t v : Bytes} (hcount : u.countP isActive < s.countP isActive)
    (hnul : 0 ∉ s → 0 ∉ u) (h : Value t v) : Value (s ++ t) (u ++ v) where
  active := by
    have hactive := h.active
    simp only [List.countP_append]
    omega
  literal hle := by
    have hactive := h.active
    simp only [List.countP_append] at hle
    omega
  nul hst := by
    rw [List.mem_append, not_or] at hst ⊢
    exact ⟨hnul hst.1, h.nul hst.2⟩

/-- The name of a parameter is the start of the text. -/
theorem parameter_prefix {s n : Bytes} (h : parameter s = some n) : n <+: s := by
  cases s with
  | nil => cases h
  | cons b s =>
    rw [parameter] at h
    split at h
    · cases h
      exact ⟨s, rfl⟩
    · split at h
      · cases h
        exact (List.prefix_cons_inj b).mpr (List.takeWhile_prefix isWord)
      · cases h

/-- What a step can do: end the text, take a byte that stands for itself, take the meaning from a
byte behind a backslash, or expand a parameter. -/
theorem quoted_cases {b : UInt8} {s v r : Bytes} (h : quoted vars 0 (b :: s) = some (v, r)) :
    (b = 34 ∧ v = [] ∧ r = s) ∨
      (plainHead (b :: s) = true ∧ ∃ w, quoted vars 0 s = some (w, r) ∧ v = b :: w) ∨
      (b = 92 ∧ ∃ c t, s = c :: t ∧ isActive c = true ∧
        ∃ w, quoted vars 0 t = some (w, r) ∧ v = c :: w) ∨
      (b = 36 ∧ ∃ n, parameter s = some n ∧
        ∃ w, quoted vars n.length s = some (w, r) ∧ v = vars n ++ w) := by
  have hmap : ∀ {u : Bytes} {o : Option (Bytes × Bytes)},
      o.map (fun t ↦ (u ++ t.1, t.2)) = some (v, r) → ∃ w, o = some (w, r) ∧ v = u ++ w := by
    intro u o ho
    obtain ⟨⟨w, q⟩, rfl, heq⟩ := Option.map_eq_some_iff.mp ho
    obtain ⟨rfl, rfl⟩ := Prod.mk.inj heq
    exact ⟨w, rfl, rfl⟩
  by_cases hplain : plainHead (b :: s) = true
  · rw [quoted_cons hplain] at h
    exact .inr (.inl ⟨hplain, hmap (u := [b]) h⟩)
  · simp only [plainHead] at hplain
    simp only [quoted] at h
    split at h
    · next hquote =>
      cases h
      exact .inl ⟨hquote, rfl, rfl⟩
    split at h
    · cases h
    split at h
    · next hquote hback hescape =>
      cases s with
      | nil => cases h
      | cons c t =>
        rw [if_neg (by simp [hquote, hback]), if_pos hescape] at hplain
        have hc : isActive c = true := by simpa using hplain
        simp only [hc, if_true] at h
        exact .inr (.inr (.inl ⟨hescape, c, t, rfl, hc, hmap (u := [c]) h⟩))
    split at h
    · next hquote hback hescape hdollar =>
      rw [if_neg (by simp [hquote, hback]), if_neg hescape, if_pos hdollar] at hplain
      split at h
      · cases h
      · next hopens =>
        cases hn : parameter s with
        | none => exact absurd (by simp [hopens, hn]) hplain
        | some n =>
          rw [hn] at h
          exact .inr (.inr (.inr ⟨hdollar, n, rfl, hmap h⟩))
    · next hquote hback hescape hdollar =>
      exact absurd (by simp [hquote, hback, hescape, hdollar]) hplain

/-- The value of a quoted text, when no variable brings in active bytes. -/
theorem value_of_quoted (hvars : Clean vars) {k : Nat} {s v r : Bytes}
    (h : quoted vars k s = some (v, r)) : ∃ t, s.drop k = t ++ 34 :: r ∧ Value t v := by
  induction s generalizing k v with
  | nil => cases k <;> cases h
  | cons b s ih =>
    cases k with
    | succ k => exact ih h
    | zero =>
      rw [List.drop_zero]
      rcases quoted_cases h with ⟨rfl, rfl, rfl⟩ | ⟨hplain, w, hw, rfl⟩ |
        ⟨rfl, c, u, rfl, hc, w, hw, rfl⟩ | ⟨rfl, n, hn, w, hw, rfl⟩
      · exact ⟨[], rfl, ⟨le_rfl, fun _ ↦ ⟨by simp [Literal, plainHead], rfl⟩, id⟩⟩
      · obtain ⟨t, ht, hvalue⟩ := ih hw
        rw [List.drop_zero] at ht
        refine ⟨b :: t, congrArg (b :: ·) ht, .cons ?_ hvalue⟩
        rw [← plainHead_append b t r, List.cons_append, ← ht]
        exact hplain
      · -- The backslash is lost.
        obtain ⟨t, ht, hvalue⟩ := ih (k := 1) hw
        refine ⟨[92, c] ++ t, congrArg ([92, c] ++ ·) ht, .append (u := [c]) ?_ ?_ hvalue⟩
        · have hback : isActive 92 = true := by decide
          simp [hc, hback]
        · exact fun hnul hmem ↦ hnul (List.mem_cons_of_mem _ hmem)
      · -- The dollar sign is lost.
        obtain ⟨t, ht, hvalue⟩ := ih hw
        obtain ⟨u, rfl⟩ := parameter_prefix hn
        rw [List.drop_left] at ht
        refine ⟨36 :: n ++ t, by rw [ht]; simp, .append ?_ ?_ hvalue⟩
        · have hzero : (vars n).countP isActive = 0 := by
            rw [List.countP_eq_zero]
            intro b hb
            simp [(hvars n b hb).1]
          have hdollar : isActive 36 = true := by decide
          rw [hzero, List.countP_cons_of_pos hdollar]
          omega
        · exact fun _ hmem ↦ (hvars n 0 hmem).2 rfl

/-! ### Lines of the file -/

/-- A name that a variable can have. -/
def isVariable (name : Bytes) : Bool :=
  name.all isWord && !name.isEmpty && !name.head?.any isDigit

/-- The line of a variable is no comment, and its name ends at the equals sign. -/
theorem isVariable_line {name : Bytes} (hname : isVariable name = true) (s : Bytes) :
    ¬ (name ++ 61 :: s = [] ∨ (name ++ 61 :: s).head? = some 35) ∧
      ¬ (name = [] ∨ name.head?.any isDigit = true) ∧
      (name ++ 61 :: s).takeWhile isWord = name ∧
      (name ++ 61 :: s).dropWhile isWord = 61 :: s := by
  simp only [isVariable, Bool.and_eq_true, Bool.not_eq_true', List.isEmpty_eq_false_iff,
    List.all_eq_true] at hname
  obtain ⟨⟨hword, hne⟩, hdigit⟩ := hname
  refine ⟨?_, by simp [hne, hdigit], ?_, ?_⟩
  · cases name with
    | nil => exact absurd rfl hne
    | cons b name =>
      have hb := hword b List.mem_cons_self
      have hhash : b ≠ 35 := by
        rintro rfl
        exact absurd hb (by decide)
      simpa using hhash
  · rw [List.takeWhile_append_of_pos hword, List.takeWhile_cons_of_neg (by decide),
      List.append_nil]
  · rw [List.dropWhile_append_of_pos hword, List.dropWhile_cons_of_neg (by decide)]

-- What is done with the text behind the equals sign.
private theorem assignLine_eq {name : Bytes} (hname : isVariable name = true) (s : Bytes) :
    assignLine vars (name ++ 61 :: s) =
      match 61 :: s with
      | 61 :: 34 :: t =>
        match quoted vars 0 t with
        | some (v, []) => some (Function.update vars name v)
        | _ => none
      | 61 :: v => if v.all isPlain then some (Function.update vars name v) else none
      | _ => none := by
  obtain ⟨hline, hdigit, htake, hdrop⟩ := isVariable_line hname s
  rw [assignLine, if_neg hline, htake, hdrop, if_neg hdigit]

/-- A line that sets a variable to a text between double quotes. -/
theorem assignLine_quoted {name : Bytes} (hname : isVariable name = true) (s : Bytes) :
    assignLine vars (name ++ 61 :: 34 :: s) =
      match quoted vars 0 s with
      | some (v, []) => some (Function.update vars name v)
      | _ => none :=
  assignLine_eq hname (34 :: s)

/-- A line that sets a variable to a text that stands for itself. -/
theorem assignLine_literal {name t : Bytes} (hname : isVariable name = true) (ht : Literal t) :
    assignLine vars (name ++ 61 :: 34 :: (t ++ [34])) = some (Function.update vars name t) := by
  rw [assignLine_quoted hname, quoted_literal ht]

/-- A line that sets a variable to a plain word. -/
theorem assignLine_plain {name v : Bytes} (hname : isVariable name = true)
    (hv : v.all isPlain = true) :
    assignLine vars (name ++ 61 :: v) = some (Function.update vars name v) := by
  rw [assignLine_eq hname]
  split
  · next t heq =>
    obtain ⟨-, rfl⟩ := List.cons.inj heq
    rw [List.all_cons] at hv
    exact absurd hv (by simp [show isPlain 34 = false from rfl])
  · next heq =>
    obtain ⟨-, rfl⟩ := List.cons.inj heq
    rw [if_pos hv]
  · next hne => exact absurd rfl (hne v)

/-- A comment sets nothing. -/
theorem assignLine_comment (s : Bytes) : assignLine vars (35 :: s) = some vars := by
  rw [assignLine, if_pos (.inr rfl)]

/-- The lines of a file are run one by one. -/
theorem source_unlines {ls : List Bytes} (h : ∀ l ∈ ls, newline ∉ l) :
    source vars (unlines ls) = (ls.map (List.filter (· ≠ 0))).foldlM assignLine vars := by
  have hfilter : ∀ l ∈ ls.map (List.filter (· ≠ 0)), newline ∉ l := by
    intro l hl
    obtain ⟨m, hm, rfl⟩ := List.mem_map.mp hl
    exact fun hmem ↦ h m hm (List.mem_of_mem_filter hmem)
  rw [source, filter_unlines, lines_unlines hfilter]

/-! ### Assignments -/

/-- Assignments in two parts. -/
theorem setVars_append (vars : Vars) (as bs : List (Bytes × Bytes)) :
    setVars vars (as ++ bs) = setVars (setVars vars as) bs := List.foldl_append

/-- The last assignment to a variable counts. -/
theorem setVars_eq (vars : Vars) (as : List (Bytes × Bytes)) (name : Bytes) :
    setVars vars as name = (as.reverse.lookup name).getD (vars name) := by
  induction as using List.reverseRecOn with
  | nil => rfl
  | append_singleton as a ih =>
    rw [setVars_append, List.reverse_append, List.reverse_singleton, List.singleton_append,
      List.lookup_cons]
    by_cases hname : name = a.1
    · subst hname
      simp [setVars]
    · have hne : (name == a.1) = false := by simpa using hname
      rw [hne]
      exact (Function.update_of_ne hname _ _).trans ih

/-! ### Words of a command -/

/-- Words on both sides of a blank. -/
theorem splitWords_append_of_blank {b : UInt8} (hb : isBlank b = true) (s t : Bytes) :
    splitWords (s ++ b :: t) = splitWords s ++ splitWords t := by
  rw [splitWords, List.splitOnP_append_cons _ _ hb, List.filter_append]
  rfl

/-- Words on both sides of a space. -/
theorem splitWords_append (s t : Bytes) :
    splitWords (s ++ 32 :: t) = splitWords s ++ splitWords t :=
  splitWords_append_of_blank rfl s t

/-- A word. -/
theorem splitWords_word {w : Bytes} (hne : w ≠ []) (h : ∀ b ∈ w, isBlank b = false) :
    splitWords w = [w] := by
  rw [splitWords, List.splitOnP_eq_singleton h, List.filter_cons_of_pos (by simpa using hne)]
  rfl

/-- A plain word. -/
theorem splitWords_plain {w : Bytes} (hne : w ≠ []) (h : ∀ b ∈ w, isPlain b = true) :
    splitWords w = [w] := by
  apply splitWords_word hne
  intro b hb
  by_contra hblank
  simp only [isBlank, Bool.not_eq_false, Bool.or_eq_true, decide_eq_true_eq] at hblank
  rcases hblank with (rfl | rfl) | rfl <;> exact notMem_of_isPlain h (by decide) hb

/-- A plain word stays as it is. -/
theorem expand_plain {g : Globbing} {w : Bytes} (h : ∀ b ∈ w, isPlain b = true)
    (names : Bytes → List Bytes) : expand g names w = [w] := by
  have hpattern : g.isPattern w = false := by
    by_contra htrue
    rcases g.special w (by simpa using htrue) with hw | hw | hw <;>
      exact notMem_of_isPlain h (by decide) hw
  simp [expand, hpattern]

/-- A plain word is left as the only word. -/
theorem words_plain (g : Globbing) (names : Bytes → List Bytes) {w : Bytes} (hne : w ≠ [])
    (hw : ∀ b ∈ w, isPlain b = true) : (splitWords w).flatMap (expand g names) = [w] := by
  rw [splitWords_plain hne hw, List.flatMap_singleton, expand_plain hw]

/-- A piece is a part of the text and has no separator in it. -/
theorem of_mem_splitOnP {p : UInt8 → Bool} {s u : Bytes} (hu : u ∈ s.splitOnP p) :
    u.Sublist s ∧ ∀ b ∈ u, p b = false := by
  induction s generalizing u with
  | nil =>
    rw [List.splitOnP_nil, List.mem_singleton] at hu
    subst hu
    simp
  | cons b s ih =>
    rw [List.splitOnP_cons_eq_if_modifyHead] at hu
    split at hu
    · rcases List.mem_cons.mp hu with rfl | hu
      · simp
      · exact ⟨(ih hu).1.cons b, (ih hu).2⟩
    · next hb =>
      obtain ⟨v, vs, hvs⟩ := List.exists_cons_of_ne_nil (List.splitOnP_ne_nil p s)
      rw [hvs, List.modifyHead_cons] at hu
      rcases List.mem_cons.mp hu with rfl | hu
      · obtain ⟨hsub, hnone⟩ := ih (hvs ▸ List.mem_cons_self)
        exact ⟨hsub.cons_cons b, List.forall_mem_cons.mpr ⟨by simpa using hb, hnone⟩⟩
      · obtain ⟨hsub, hnone⟩ := ih (hvs ▸ List.mem_cons_of_mem v hu)
        exact ⟨hsub.cons b, hnone⟩

/-- A word is a part of the text and has no blank in it. -/
theorem of_mem_splitWords {s w : Bytes} (hw : w ∈ splitWords s) :
    w.Sublist s ∧ ∀ b ∈ w, isBlank b = false :=
  of_mem_splitOnP (List.mem_of_mem_filter hw)

/-- A word is not empty. -/
theorem ne_nil_of_mem_splitWords {s w : Bytes} (hw : w ∈ splitWords s) : w ≠ [] := by
  simpa using (List.mem_filter.mp hw).2

end MotionPie.Shell
