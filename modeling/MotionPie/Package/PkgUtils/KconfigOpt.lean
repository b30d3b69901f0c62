import MotionPie.Base.EditLog
import MotionPie.Shell.Sed

/-!
# Options in a `.config` file

The macros of `package/pkg-utils.mk` with which a recipe sets the options of a package. Each
deletes the lines that have the name of the option in them as a word, and writes the line of the
option at the end of the file. A word is made of letters, digits and underscores; the name may
stand anywhere on the line.
-/

namespace MotionPie.Package.PkgUtils

open Base Base.EditLog Shell

/-- An option. Its name is a word, so it is a pattern of `sed` for itself alone. -/
structure Opt where
  name : Bytes
  ne_nil : name ≠ []
  word : ∀ b ∈ name, isWord b

/-- The value of an option. It is on one line, between quotes of the shell. -/
structure Value where
  text : Bytes
  newline_notMem : newline ∉ text
  quote_notMem : (39 : UInt8) ∉ text

/-- `\<o\>` in a line. `inWord` tells whether what stands before the line is part of a word. -/
def mentionsFrom (o : Bytes) (inWord : Bool) : Bytes → Bool
  | [] => false
  | b :: s =>
    (!inWord && o.isPrefixOf (b :: s) && !((b :: s).drop o.length).head?.any isWord) ||
      mentionsFrom o (isWord b) s

/-- Whether a line has a name in it, as a word. -/
def mentions (o line : Bytes) : Bool := mentionsFrom o false line

/-- `$(SED) "/\\<$(1)\\>/d" $(2)`. -/
def deleteOpt (opt : Opt) (file : Bytes) : Bytes :=
  sed (fun l ↦ if mentions opt.name l then none else some l) file

/-- `KCONFIG_ENABLE_OPT`, `package/pkg-utils.mk:51-54`. -/
def kconfigEnableOpt (opt : Opt) (file : Bytes) : Bytes :=
  deleteOpt opt file ++ echo (opt.name ++ str "=y")

/-- `KCONFIG_SET_OPT`, `package/pkg-utils.mk:56-59`. -/
def kconfigSetOpt (opt : Opt) (value : Value) (file : Bytes) : Bytes :=
  deleteOpt opt file ++ echo (opt.name ++ str "=" ++ value.text)

/-- `KCONFIG_DISABLE_OPT`, `package/pkg-utils.mk:61-64`. -/
def kconfigDisableOpt (opt : Opt) (file : Bytes) : Bytes :=
  deleteOpt opt file ++ echo (str "# " ++ opt.name ++ str " is not set")

/-- A call of one of the macros. -/
inductive Fixup
  | enable (opt : Opt)
  | set (opt : Opt) (value : Value)
  | disable (opt : Opt)

namespace Fixup

/-- `$(1)`. -/
def opt : Fixup → Opt
  | enable o => o
  | set o _ => o
  | disable o => o

/-- The line that is written. -/
def line : Fixup → Bytes
  | enable o => o.name ++ str "=y"
  | set o v => o.name ++ str "=" ++ v.text
  | disable o => str "# " ++ o.name ++ str " is not set"

/-- What the call makes of the file. -/
def apply : Fixup → Bytes → Bytes
  | enable o => kconfigEnableOpt o
  | set o v => kconfigSetOpt o v
  | disable o => kconfigDisableOpt o

/-- The call as an edit by key. -/
def edit (e : Fixup) : Bytes × Bytes := (e.opt.name, e.line)

end Fixup

/-- The commands of a recipe, such as `UCLIBC_KCONFIG_FIXUP_CMDS`,
`package/uclibc/uclibc.mk:367-397`. -/
def fixup (es : List Fixup) (file : Bytes) : Bytes := es.foldl (fun f e ↦ e.apply f) file

/-- The option that a line is about. -/
def optionOf (l : Bytes) : Option Bytes :=
  let o := l.takeWhile isWord
  let unset := (l.drop 2).takeWhile isWord
  if o ≠ [] ∧ o ++ str "=" <+: l then some o
  else if unset ≠ [] ∧ l = str "# " ++ unset ++ str " is not set" then some unset
  else none

/-- The text behind the last terminator. -/
def unfinished (file : Bytes) : Bytes := file.rtakeWhile (· ≠ newline)

/-- The line of the first call begins a line of the file, or it and the line that it is joined to
need not stay. -/
def BeginsLine (file : Bytes) : List Fixup → Prop
  | [] => True
  | e :: es => unfinished file = [] ∨ mentions e.opt.name (unfinished file) ∨
      Dispensable mentions optionOf e.edit (es.map Fixup.edit) (unfinished file)
        (unfinished file ++ e.line)

/-! ### Words -/

/-- A name is mentioned where it stands between other characters. -/
theorem mentions_append {o h t : Bytes} (ho : o ≠ []) (hh : ∀ b ∈ h, isWord b = false)
    (ht : t.head?.any isWord = false) : mentions o (h ++ o ++ t) := by
  unfold mentions
  induction h with
  | nil =>
    obtain ⟨b, s, rfl⟩ := List.exists_cons_of_ne_nil ho
    simp [mentionsFrom, ht]
  | cons b h ih =>
    rw [List.forall_mem_cons] at hh
    rw [List.cons_append, List.cons_append, mentionsFrom, hh.1, ih hh.2, Bool.or_true]

/-- The word at the start of a line is as long as can be. -/
theorem takeWhile_word {o : Bytes} (ho : ∀ b ∈ o, isWord b) {t : Bytes}
    (ht : t.head?.any isWord = false) : (o ++ t).takeWhile isWord = o := by
  rw [List.takeWhile_append_of_pos ho]
  cases t with
  | nil => exact List.append_nil o
  | cons b t => rw [List.takeWhile_cons_of_neg (by simpa using ht), List.append_nil]

/-- A line mentions the option that it is about. -/
theorem mentions_of_optionOf (k l : Bytes) (h : optionOf l = some k) : mentions k l := by
  unfold optionOf at h
  dsimp only at h
  split at h
  · next hset =>
    obtain ⟨hne, t, ht⟩ := hset
    obtain rfl := Option.some.inj h
    have hself := mentions_append (h := []) (t := str "=" ++ t) hne (by simp) rfl
    rwa [List.nil_append, ← List.append_assoc, ht] at hself
  · split at h
    · next hunset =>
      obtain ⟨hne, hl⟩ := hunset
      obtain rfl := Option.some.inj h
      have hself := mentions_append (h := str "# ") (t := str " is not set") hne (by decide) rfl
      rwa [← hl] at hself
    · cases h

namespace Opt

variable (o : Opt)

theorem newline_notMem : newline ∉ o.name := by
  intro h
  exact absurd (o.word _ h) (by decide)

end Opt

namespace Fixup

variable (e : Fixup)

theorem apply_eq (file : Bytes) : e.apply file = deleteOpt e.opt file ++ echo e.line := by
  cases e <;> rfl

/-- The line of a call is about its option. -/
theorem optionOf_line : optionOf e.line = some e.opt.name := by
  have hset (o : Opt) (t : Bytes) : optionOf (o.name ++ str "=" ++ t) = some o.name := by
    have hword : (o.name ++ str "=" ++ t).takeWhile isWord = o.name := by
      rw [List.append_assoc]
      exact takeWhile_word o.word rfl
    rw [optionOf, hword]
    exact if_pos ⟨o.ne_nil, List.prefix_append _ _⟩
  cases e with
  | enable o =>
    have hy := hset o (str "y")
    rw [List.append_assoc] at hy
    exact hy
  | set o v => exact hset o v.text
  | disable o =>
    have hword : ((line (disable o)).drop 2).takeWhile isWord = o.name :=
      takeWhile_word o.word rfl
    have hhead : (line (disable o)).takeWhile isWord = [] := rfl
    rw [optionOf, hword, hhead]
    exact (if_neg fun h ↦ h.1 rfl).trans (if_pos ⟨o.ne_nil, rfl⟩)

theorem newline_notMem_line : newline ∉ e.line := by
  cases e with
  | enable o => simpa [line, o.newline_notMem] using by decide
  | set o v => simpa [line, o.newline_notMem, v.newline_notMem] using by decide
  | disable o => simpa [line, o.newline_notMem] using by decide

theorem line_ne_nil : e.line ≠ [] := by
  intro h
  have hkey := e.optionOf_line
  rw [h] at hkey
  cases hkey

end Fixup

/-! ### Files -/

variable {ls : List Bytes} {r file : Bytes}

/-- A call writes its line behind a last line that has no terminator, if it does not delete it. -/
theorem apply_unlines_append (e : Fixup) (hls : ∀ l ∈ ls, newline ∉ l) (hr : newline ∉ r) :
    e.apply (unlines ls ++ r) = unlines (ls.filter (fun l ↦ !mentions e.opt.name l) ++
      [(if mentions e.opt.name r then [] else r) ++ e.line]) := by
  rw [e.apply_eq, deleteOpt, sed_delete_unlines_append _ hls hr]
  simp [unlines, echo]

/-- A call on a file whose last line is terminated, or deleted. -/
theorem apply_of_begins (e : Fixup) (hls : ∀ l ∈ ls, newline ∉ l) (hr : newline ∉ r)
    (h : r = [] ∨ mentions e.opt.name r) :
    e.apply (unlines ls ++ r) = unlines (EditLog.edit mentions (ls ++ rest r) e.edit) := by
  have hrest : (rest r).filter (fun l ↦ !mentions e.opt.name l) = [] := by
    unfold rest
    rcases h with h | h <;> simp [h]
  have hglued : (if mentions e.opt.name r then [] else r) = [] := by
    rcases h with h | h <;> simp [h]
  rw [apply_unlines_append e hls hr, EditLog.edit, List.filter_append]
  change unlines (_ ++ [_]) = unlines (_ ++ (rest r).filter (fun l ↦ !mentions e.opt.name l) ++ [_])
  rw [hrest, hglued, List.append_nil]
  rfl

/-- The lines of an edited file. -/
theorem newline_notMem_edit (e : Fixup) (hls : ∀ l ∈ ls, newline ∉ l) :
    ∀ l ∈ EditLog.edit mentions ls e.edit, newline ∉ l := by
  intro l hl
  rcases List.mem_append.mp hl with hl | hl
  · exact hls l (List.mem_of_mem_filter hl)
  · exact List.mem_singleton.mp hl ▸ e.newline_notMem_line

/-- Calls on a file whose last line is terminated. -/
theorem lines_fixup_unlines (es : List Fixup) (hls : ∀ l ∈ ls, newline ∉ l) :
    lines (fixup es (unlines ls)) = editAll mentions ls (es.map Fixup.edit) := by
  induction es generalizing ls with
  | nil => exact lines_unlines hls
  | cons e es ih =>
    have hstep := apply_of_begins e hls (List.not_mem_nil (a := newline)) (.inl rfl)
    rw [rest, if_pos rfl, List.append_nil, List.append_nil] at hstep
    rw [fixup, List.foldl_cons, hstep, ← fixup, ih (newline_notMem_edit e hls)]
    rfl

theorem unfinished_unlines_append (ls : List Bytes) (hr : newline ∉ r) :
    unfinished (unlines ls ++ r) = r := by
  have hend : (unlines ls).reverse.takeWhile (· ≠ newline) = [] := by
    rcases List.eq_nil_or_concat ls with rfl | ⟨init, l, rfl⟩
    · rfl
    · simp [unlines]
  have hall : ∀ b ∈ r.reverse, decide (b ≠ newline) := by
    intro b hb
    exact decide_eq_true fun h ↦ hr (h ▸ List.mem_reverse.mp hb)
  rw [unfinished, List.rtakeWhile, List.reverse_append, List.takeWhile_append_of_pos hall, hend,
    List.append_nil, List.reverse_reverse]

/-- The calls are edits by the options. -/
theorem keyed_fixups (es : List Fixup) : Keyed mentions optionOf (es.map Fixup.edit) := by
  refine ⟨mentions_of_optionOf, fun e he ↦ ?_⟩
  obtain ⟨f, -, rfl⟩ := List.mem_map.mp he
  exact f.optionOf_line

/-- Every option that a sequence of calls is about has one line behind it, that of the last call,
and the lines of the other options are as they were, if and only if no call deletes a line that has
to stay and the first call begins a line. -/
theorem kept_fixup_iff (es : List Fixup) (file : Bytes) :
    Kept optionOf (lines file) (es.map Fixup.edit) (lines (fixup es file)) ↔
      Separate mentions optionOf (lines file) (es.map Fixup.edit) ∧ BeginsLine file es := by
  obtain ⟨ls, r, hls, hr, rfl⟩ := exists_unlines file
  have hlines := lines_unlines_append hls hr
  have hkeyed := keyed_fixups es
  cases es with
  | nil =>
    exact (kept_editAll_iff hkeyed (lines (unlines ls ++ r))).trans (and_iff_left trivial).symm
  | cons e es =>
    rw [List.map_cons] at hkeyed ⊢
    by_cases h : r = [] ∨ mentions e.opt.name r
    · -- The call writes a line of its own.
      have hnew : ∀ l ∈ ls ++ rest r, newline ∉ l := by
        rw [List.forall_mem_append]
        exact ⟨hls, by unfold rest; split <;> simp [hr]⟩
      have hout : lines (fixup (e :: es) (unlines ls ++ r)) =
          editAll mentions (ls ++ rest r) (e.edit :: es.map Fixup.edit) := by
        rw [fixup, List.foldl_cons, apply_of_begins e hls hr h, ← fixup,
          lines_fixup_unlines es (newline_notMem_edit e hnew)]
        rfl
      have hbegins : BeginsLine (unlines ls ++ r) (e :: es) := by
        rw [BeginsLine, unfinished_unlines_append ls hr]
        tauto
      rw [hlines, hout, kept_editAll_iff hkeyed]
      exact (and_iff_left hbegins).symm
    · -- The call is joined to the last line.
      rw [not_or] at h
      have hnew : ∀ l ∈ ls.filter (fun l ↦ !mentions e.opt.name l) ++ [r ++ e.line],
          newline ∉ l := by
        intro l hl
        rcases List.mem_append.mp hl with hl | hl
        · exact hls l (List.mem_of_mem_filter hl)
        · rw [List.mem_singleton.mp hl, List.mem_append, not_or]
          exact ⟨hr, e.newline_notMem_line⟩
      have hout : lines (fixup (e :: es) (unlines ls ++ r)) = editAll mentions
          (ls.filter (fun l ↦ !mentions e.opt.name l) ++ [r ++ e.line]) (es.map Fixup.edit) := by
        rw [fixup, List.foldl_cons, apply_unlines_append e hls hr, if_neg h.2, ← fixup,
          lines_fixup_unlines es hnew]
      have hbegins : BeginsLine (unlines ls ++ r) (e :: es) ↔
          Dispensable mentions optionOf e.edit (es.map Fixup.edit) r (r ++ e.line) := by
        rw [BeginsLine, unfinished_unlines_append ls hr]
        tauto
      have hrest : rest r = [r] := if_neg h.1
      rw [hlines, hout, hbegins, hrest]
      exact kept_joined_iff hkeyed ls (by simpa [Fixup.edit] using h.1)
        (by simpa using e.line_ne_nil)

/-- `CONFIG_STATIC`. -/
def configStatic : Opt := ⟨str "CONFIG_STATIC", by decide, by decide⟩

/-- A file with one option, whose value has `CONFIG_STATIC` in it. -/
def extraCflags : Bytes := str "CONFIG_EXTRA_CFLAGS=\"-D CONFIG_STATIC\"\n"

/-- A value that has the name of another option in it goes when that option is enabled. -/
theorem extraCflags_deleted : ((lines extraCflags).filterMap optionOf).Nodup ∧
    fixup [.enable configStatic] extraCflags = str "CONFIG_STATIC=y\n" ∧
    ¬ Kept optionOf (lines extraCflags) ([.enable configStatic].map Fixup.edit)
      (lines (fixup [.enable configStatic] extraCflags)) :=
  ⟨by decide, by decide, fun h ↦ absurd h.untouched (by decide)⟩

end MotionPie.Package.PkgUtils
