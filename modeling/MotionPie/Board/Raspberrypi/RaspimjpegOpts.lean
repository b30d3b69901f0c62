import MotionPie.Board.Raspberrypi.RaspimjpegConf.Files
import MotionPie.Shell.Source

/-!
# The options of raspimjpeg.py

`board/raspberrypi/overlay/usr/bin/streameye.sh` makes a command line of `raspimjpeg.conf`: a line
with `false` in it is skipped, of a line with `true` in it the first field is left. `echo` takes
none of the lines for an option of its own.
-/

namespace MotionPie.Board.Raspberrypi.Raspimjpeg

open Base Shell

/-- The loop body, `streameye.sh:31-37`. -/
def addOption (g : Globbing) (names : Bytes → List Bytes) (opts line : Bytes) : Bytes :=
  if (lines (echo line)).any (contains (str "false")) then opts
  else
    let line :=
      if (lines (echo line)).any (contains (str "true")) then
        substitute (cut (field 32 1)
          (echo ([32].intercalate ((splitWords line).flatMap (expand g names)))))
      else line
    opts ++ str " --" ++ line

/-- `raspimjpeg_opts`, `streameye.sh:29-49`. -/
def raspimjpegOpts (g : Globbing) (names : Bytes → List Bytes) (raspimjpegConf : Bytes)
    (motioneyeConf : Option Bytes) : Bytes :=
  let opts := (whileRead raspimjpegConf).foldl (addOption g names) []
  if motioneyeConf.any fun conf ↦ (lines conf).any (contains (str "log-level debug")) then
    opts ++ str " -d"
  else opts

/-- The arguments of `raspimjpeg.py $raspimjpeg_opts`. -/
def raspimjpegArgs (g : Globbing) (names : Bytes → List Bytes) (raspimjpegConf : Bytes)
    (motioneyeConf : Option Bytes) : List Bytes :=
  (splitWords (raspimjpegOpts g names raspimjpegConf motioneyeConf)).flatMap (expand g names)

/-- The arguments that an option is given by. -/
def optionArgs : Bytes × Val → List Bytes
  | (_, .bool false) => []
  | (name, .bool true) => [str "--" ++ name]
  | (name, v) => [str "--" ++ name, optionText v]

/-- The argument for debugging. -/
def debugArgs (motioneyeConf : Option Bytes) : List Bytes :=
  if motioneyeConf.any fun conf ↦ (lines conf).any (contains (str "log-level debug")) then
    [str "-d"]
  else []

/-- A word that the loop takes for no boolean. -/
def Neutral (s : Bytes) : Prop := contains (str "false") s = false ∧ contains (str "true") s = false

instance (s : Bytes) : Decidable (Neutral s) := inferInstanceAs (Decidable (_ ∧ _))

/-- An option that the script hands on. -/
structure Passed (i : Bytes × Val) : Prop where
  name_ne_nil : i.1 ≠ []
  name : ∀ b ∈ i.1, isPlain b = true
  neutral : Neutral i.1
  value_ne_nil : optionText i.2 ≠ []
  value : ∀ b ∈ optionText i.2, isPlain b = true
  text : ∀ t, i.2 = .text t → Neutral t

variable {g : Globbing} {names : Bytes → List Bytes} {i : Bytes × Val} {l : List (Bytes × Val)}

/-! ### Lines -/

/-- An option that the script hands on can be read back. -/
theorem Passed.writable (h : Passed i) : Writable i where
  ne_nil := h.name_ne_nil
  head b hb := isSpace_of_isPlain (h.name b (List.mem_of_mem_head? hb))
  blank := notMem_of_isPlain h.name (by decide)
  newline := notMem_of_isPlain h.name (by decide)
  value := ⟨h.value_ne_nil, notMem_of_isPlain h.value (by decide), fun b hb ↦
    isSpace_of_isPlain (h.value b (List.mem_of_mem_getLast? hb))⟩

theorem mem_optionLine (h : Passed i) : ∀ b ∈ optionLine i, isPlain b = true ∨ b = 32 := by
  intro b hb
  rcases List.mem_append.mp hb with hb | hb
  · exact .inl (h.name b hb)
  · rcases List.mem_cons.mp hb with rfl | hb
    · exact .inr rfl
    · exact .inl (h.value b hb)

/-- The loop takes the lines that the setter writes. -/
theorem whileRead_optionLines (h : ∀ i ∈ l, Passed i) :
    whileRead (unlines (l.map optionLine)) = l.map optionLine := by
  have hplain : ∀ b : UInt8, isPlain b = true → b ≠ 32 ∧ b ≠ 9 := by
    intro b hb
    constructor
    · rintro rfl
      exact absurd hb (by decide)
    · rintro rfl
      exact absurd hb (by decide)
  apply whileRead_unlines
  · intro line hline b hb
    obtain ⟨i, hi, rfl⟩ := List.mem_map.mp hline
    rcases mem_optionLine (h i hi) b hb with hb | rfl
    · refine ⟨?_, ?_, ?_⟩
      all_goals
        rintro rfl
        exact absurd hb (by decide)
    · decide
  · intro line hline b hb
    obtain ⟨i, hi, rfl⟩ := List.mem_map.mp hline
    rw [optionLine, List.head?_append_of_ne_nil _ (h i hi).name_ne_nil] at hb
    exact hplain b ((h i hi).name b (List.mem_of_mem_head? hb))
  · intro line hline b hb
    obtain ⟨i, hi, rfl⟩ := List.mem_map.mp hline
    rw [optionLine, List.getLast?_append_cons,
      List.getLast?_cons_of_ne_nil (h i hi).value_ne_nil] at hb
    exact hplain b ((h i hi).value b (List.mem_of_mem_getLast? hb))

/-- A line has the words of its value in it. -/
theorem contains_optionLine {word : Bytes} (h : contains word i.1 = false) (hword : 32 ∉ word) :
    contains word (optionLine i) = contains word (optionText i.2) := by
  rw [optionLine, contains_append_cons hword, h, Bool.false_or]

/-- A value that is no boolean is not taken for one. -/
theorem neutral_optionText (h : Passed i) (hbool : ∀ b, i.2 ≠ .bool b) :
    Neutral (optionText i.2) := by
  have hint : ∀ n : Int, 101 ∉ showInt n := notMem_showInt (by decide)
  cases hvalue : i.2 with
  | int n =>
    constructor
    · exact contains_eq_false (show 101 ∈ str "false" by decide) (hint n)
    · exact contains_eq_false (show 101 ∈ str "true" by decide) (hint n)
  | bool b => exact absurd hvalue (hbool b)
  | text t => exact h.text t hvalue

/-- The first field of the line of an option is its name. -/
theorem field_optionLine (h : Passed i) : field 32 1 (optionLine i) = i.1 := by
  have hblank : 32 ∉ i.1 := notMem_of_isPlain h.name (by decide)
  rw [field, if_pos (by simp [optionLine]), optionLine,
    List.splitOn_append_cons_self_of_not_mem hblank]
  rfl

/-- `echo $line | cut -d ' ' -f 1`, for the line of an option. -/
theorem substitute_cut_optionLine (h : Passed i) :
    substitute (cut (field 32 1)
      (echo ([32].intercalate ((splitWords (optionLine i)).flatMap (expand g names))))) = i.1 := by
  have hwords : (splitWords (optionLine i)).flatMap (expand g names) =
      [i.1, optionText i.2] := by
    rw [optionLine, splitWords_append, List.flatMap_append,
      words_plain g names h.name_ne_nil h.name, words_plain g names h.value_ne_nil h.value]
    rfl
  have hline : [32].intercalate [i.1, optionText i.2] = optionLine i := by
    simp [List.intercalate, optionLine]
  have hzero : 0 ∉ i.1 := notMem_of_isPlain h.name (by decide)
  have hnewline : newline ∉ i.1 := notMem_of_isPlain h.name (by decide)
  rw [hwords, hline, cut, lines_echo (newline_notMem_optionLine h.writable), List.map_singleton,
    field_optionLine h, substitute_line hnewline, filter_nul hzero]

/-! ### The command line -/

/-- What the words of the options become. -/
def argsOf (g : Globbing) (names : Bytes → List Bytes) (opts : Bytes) : List Bytes :=
  (splitWords opts).flatMap (expand g names)

/-- A word is one argument more. -/
theorem argsOf_append (opts : Bytes) {w : Bytes} (hne : w ≠ []) (hw : ∀ b ∈ w, isPlain b = true) :
    argsOf g names (opts ++ 32 :: w) = argsOf g names opts ++ [w] := by
  rw [argsOf, splitWords_append, List.flatMap_append, words_plain g names hne hw]
  rfl

/-- The name of an option on the command line. -/
theorem isPlain_dashes (h : Passed i) : ∀ b ∈ str "--" ++ i.1, isPlain b = true := by
  have hdashes : ∀ b ∈ str "--", isPlain b = true := by decide
  exact List.forall_mem_append.mpr ⟨hdashes, h.name⟩

/-- The loop body adds the arguments of an option. -/
theorem argsOf_addOption (h : Passed i) (opts : Bytes) :
    argsOf g names (addOption g names opts (optionLine i)) =
      argsOf g names opts ++ optionArgs i := by
  have hline : ∀ word, (lines (echo (optionLine i))).any (contains word) =
      contains word (optionLine i) := by
    intro word
    rw [lines_echo (newline_notMem_optionLine h.writable), List.any_cons, List.any_nil,
      Bool.or_false]
  have hfalse := contains_optionLine h.neutral.1 (by decide)
  have htrue := contains_optionLine h.neutral.2 (by decide)
  have hname : argsOf g names (opts ++ 32 :: (str "--" ++ i.1)) =
      argsOf g names opts ++ [str "--" ++ i.1] :=
    argsOf_append opts (by simp [str]) (isPlain_dashes h)
  rw [addOption, hline, hline, hfalse, htrue]
  by_cases hbool : ∃ b, i.2 = .bool b
  · obtain ⟨b, hb⟩ := hbool
    obtain ⟨name, v⟩ := i
    subst hb
    cases b with
    | false =>
      have hcontains : contains (str "false") (optionText (.bool false)) = true := by decide
      rw [if_pos hcontains, optionArgs, List.append_nil]
    | true =>
      have hskip : contains (str "false") (optionText (.bool true)) = false := by decide
      have hcontains : contains (str "true") (optionText (.bool true)) = true := by decide
      simp only [hskip, hcontains, if_true, substitute_cut_optionLine h]
      rw [if_neg Bool.false_ne_true, optionArgs, ← hname]
      simp [str]
  · have hneutral := neutral_optionText h fun b hb ↦ hbool ⟨b, hb⟩
    have hargs : optionArgs i = [str "--" ++ i.1, optionText i.2] := by
      obtain ⟨name, v⟩ := i
      cases v with
      | int n => rfl
      | bool b => exact absurd ⟨b, rfl⟩ hbool
      | text t => rfl
    have hopts : opts ++ str " --" ++ optionLine i =
        (opts ++ 32 :: (str "--" ++ i.1)) ++ 32 :: optionText i.2 := by
      simp [str, optionLine]
    rw [hneutral.1, hneutral.2]
    simp only [if_neg Bool.false_ne_true]
    rw [hopts, argsOf_append _ h.value_ne_nil h.value, hname, hargs]
    simp

/-- The loop adds the arguments of all options. -/
theorem argsOf_foldl_addOption (h : ∀ i ∈ l, Passed i) (opts : Bytes) :
    argsOf g names ((l.map optionLine).foldl (addOption g names) opts) =
      argsOf g names opts ++ l.flatMap optionArgs := by
  induction l generalizing opts with
  | nil => simp
  | cons i l ih =>
    rw [List.forall_mem_cons] at h
    rw [List.map_cons, List.foldl_cons, ih h.2, argsOf_addOption h.1, List.flatMap_cons,
      List.append_assoc]

/-- The command line of a file with options. -/
theorem raspimjpegArgs_unlines (h : ∀ i ∈ l, Passed i) (motioneyeConf : Option Bytes) :
    raspimjpegArgs g names (unlines (l.map optionLine)) motioneyeConf =
      l.flatMap optionArgs ++ debugArgs motioneyeConf := by
  have hopts : argsOf g names ((l.map optionLine).foldl (addOption g names) []) =
      l.flatMap optionArgs := argsOf_foldl_addOption h []
  rw [raspimjpegArgs, raspimjpegOpts, whileRead_optionLines h, debugArgs]
  split
  · have hdebug : str " -d" = 32 :: str "-d" := rfl
    rw [hdebug]
    exact (argsOf_append _ (by decide) (by decide)).trans (by rw [hopts])
  · rw [List.append_nil]
    exact hopts

end MotionPie.Board.Raspberrypi.Raspimjpeg
