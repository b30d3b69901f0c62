import MotionPie.Board.Raspberrypi.RaspimjpegConf.Conversion

/-!
# Writing and reading options

A file denotes the options of its lines. A dictionary of options that has been written is read back
with the values that their texts stand for: an integer, a boolean and a value that has been read
stand for themselves.
-/

namespace MotionPie.Board.Raspberrypi.Raspimjpeg

open Base
open Package.Motioneye.Extractl (dashed Readable entry)

/-- The option that a line sets. -/
def option (line : Bytes) : Option (Bytes × Val) :=
  match split 32 1 (strip line) with
  | [name, value] => some (name, readVal value)
  | _ => none

/-- The options that a file sets, line by line. -/
def options (conf : Bytes) : List (Bytes × Val) := (readlines conf).filterMap option

/-- An option under the name that the getter gives it. -/
def dash (i : Bytes × Val) : Bytes × Val := (dashed i.1, i.2)

/-- An option that can be read back from its line. -/
structure Writable (i : Bytes × Val) : Prop where
  ne_nil : i.1 ≠ []
  head : ∀ b ∈ i.1.head?, isSpace b = false
  blank : 32 ∉ i.1
  newline : newline ∉ i.1
  value : Readable (optionText i.2)

/-- An option with the value that its text stands for. -/
def reread (i : Bytes × Val) : Bytes × Val := (i.1, readVal (optionText i.2))

variable {o : Order Bytes Val} {s : Settings} {l : List (Bytes × Val)} {i : Bytes × Val}

/-! ### Values -/

@[simp] theorem readVal_showInt (n : Int) : readVal (showInt n) = .int n := by
  rw [readVal, toInt_showInt]

/-- A value that has been read stands for itself. -/
theorem readVal_optionText_readVal (value : Bytes) :
    readVal (optionText (readVal value)) = readVal value := by
  cases hint : toInt value with
  | some n =>
    have hvalue : readVal value = .int n := by rw [readVal, hint]
    rw [hvalue]
    exact readVal_showInt n
  | none =>
    have hvalue : readVal value = if value = str "false" then .bool false
        else if value = str "true" then .bool true else .text value := by rw [readVal, hint]
    rw [hvalue]
    split
    · rfl
    · split
      · rfl
      · exact hvalue.trans (by simp [*])

/-! ### Lines -/

theorem readLine_eq (s : Settings) (line : Bytes) :
    readLine s line = insertAll s ((option line).map dash).toList := by
  unfold readLine entry option
  generalize split 32 1 (strip line) = parts
  match parts with
  | [] => rfl
  | [_] => rfl
  | [_, _] => rfl
  | _ :: _ :: _ :: _ => rfl

/-- The getter reads the options of the file over the defaults. -/
theorem readConf_eq (conf : Option Bytes) :
    readConf conf = insertAll defaults ((options (conf.getD [])).map dash) := by
  have hfold : ∀ (ls : List Bytes) (s : Settings),
      ls.foldl readLine s = insertAll s ((ls.filterMap option).map dash) := by
    intro ls
    induction ls with
    | nil => exact fun s ↦ rfl
    | cons line ls ih =>
      intro s
      rw [List.foldl_cons, ih, readLine_eq]
      cases hline : option line with
      | none => rw [List.filterMap_cons_none hline]; rfl
      | some i => rw [List.filterMap_cons_some hline]; rfl
  exact hfold _ _

/-- The line of an option has no terminator. -/
theorem newline_notMem_optionLine (h : Writable i) : newline ∉ optionLine i := by
  simpa [optionLine, h.newline, h.value.newline] using (show newline ≠ 32 by decide)

/-- The line of an option. -/
theorem option_optionLine (h : Writable i) :
    option (optionLine i ++ [newline]) = some (reread i) := by
  have hsolid : strip (optionLine i) = optionLine i := by
    apply strip_eq_self
    · rw [optionLine, List.head?_append_of_ne_nil _ h.ne_nil]
      exact h.head
    · rw [optionLine, List.getLast?_append_cons, List.getLast?_cons_of_ne_nil h.value.ne_nil]
      exact h.value.last
  have hsplit : split 32 1 (optionLine i) = [i.1, optionText i.2] :=
    split_one_eq.mpr ⟨h.blank, rfl⟩
  rw [option, strip_append_newline, hsolid, hsplit]
  rfl

/-- The options of the lines that were written. -/
theorem options_unlines (h : ∀ i ∈ l, Writable i) :
    options (unlines (l.map optionLine)) = l.map reread := by
  have hlines : ∀ k ∈ l.map optionLine, newline ∉ k := by
    intro k hk
    obtain ⟨i, hi, rfl⟩ := List.mem_map.mp hk
    exact newline_notMem_optionLine (h i hi)
  rw [options, readlines_unlines hlines, List.map_map]
  clear hlines
  induction l with
  | nil => rfl
  | cons i l ih =>
    rw [List.forall_mem_cons] at h
    have hcons := List.filterMap_cons_some (l := l.map ((· ++ [newline]) ∘ optionLine))
      (option_optionLine h.1)
    exact hcons.trans (congrArg (reread i :: ·) (ih h.2))

/-! ### Files -/

/-- The lines of the file are the options in some order. -/
theorem perm_sortedItems (h : Holds s l) : (sortedItems o s).Perm l :=
  (List.perm_insertionSort _ _).trans h.perm_items

/-- The options of the file that was written. -/
theorem perm_options_render (h : Holds s l) (hl : ∀ i ∈ l, Writable i) :
    (options (render o s)).Perm (l.map reread) := by
  have hperm := perm_sortedItems (o := o) h
  rw [render, options_unlines fun i hi ↦ hl i (hperm.mem_iff.mp hi)]
  exact hperm.map reread

/-- The names stay when options are read back. -/
theorem map_fst_reread (l : List (Bytes × Val)) : (l.map reread).map Prod.fst = l.map Prod.fst := by
  rw [List.map_map]
  rfl

theorem holds_defaults : Holds defaults defaultItems := holds_insertAll (by decide)

/-- The options that are read back from the file, over the defaults. -/
theorem readConf_render (h : Holds s l) (hl : ∀ i ∈ l, Writable i)
    (hdashed : ∀ i ∈ l, dashed i.1 = i.1) (hall : ∀ i ∈ defaultItems, i.1 ∈ l.map Prod.fst) :
    Holds (readConf (some (render o s))) (l.map reread) := by
  have hperm := perm_options_render (o := o) h hl
  have hdash : (options (render o s)).map dash = options (render o s) := by
    have hself : ∀ i ∈ options (render o s), dash i = id i := by
      intro i hi
      obtain ⟨j, hj, rfl⟩ := List.mem_map.mp (hperm.mem_iff.mp hi)
      exact Prod.ext (hdashed j hj) rfl
    rw [List.map_congr_left hself, List.map_id]
  have hsorted : ((options (render o s)).map Prod.fst).Nodup := by
    rw [(hperm.map Prod.fst).nodup_iff, map_fst_reread]
    exact h.nodup
  have hread := holds_defaults.insertAll hsorted (by
    intro i hi
    rw [(hperm.map Prod.fst).mem_iff, map_fst_reread]
    exact hall i hi)
  rw [readConf_eq, Option.getD_some, hdash]
  exact hread.perm hperm

end MotionPie.Board.Raspberrypi.Raspimjpeg
