import MotionPie.Shell.Source

/-!
# The table of character set modules

The awk program of `support/scripts/expunge-gconv-modules`, which keeps what is usable with some
modules of a `gconv-modules` file. It gathers the directives in arrays by the file of the module, by
the real name of an alias, and, for the cost, by the first character set alone. A directive to the
internal representation stands for one from it as well. The number that awk makes of a field is a
parameter.
-/

namespace MotionPie.Support.ExpungeGconvModules

open Base Shell

/-- `INTERNAL`. -/
def internal : Bytes := str "INTERNAL"

/-- `$n`. -/
def field (n : Nat) (line : Bytes) : Bytes := ((splitWords line)[n - 1]?).getD []

/-- The arrays. What is not in one is empty. -/
structure Arrays where
  aliases : Bytes → Bytes
  file2internals : Bytes → Bytes
  file2cset : Bytes → Bytes
  mod2cost : Bytes → Bytes

/-- The arrays before the first line. -/
def Arrays.empty : Arrays := ⟨fun _ ↦ [], fun _ ↦ [], fun _ ↦ [], fun _ ↦ []⟩

/-- `a[k] = a[k] " " v`. -/
def append (a : Bytes → Bytes) (k v : Bytes) : Bytes → Bytes := Function.update a k (a k ++ 32 :: v)

/-- `$1 == "alias"`, `support/scripts/expunge-gconv-modules:23-25`. -/
def Arrays.recordAlias (a : Arrays) (line : Bytes) : Arrays :=
  if field 1 line = str "alias" then
    { a with aliases := append a.aliases (field 3 line) (field 2 line) }
  else a

/-- A module to the internal representation, `support/scripts/expunge-gconv-modules:26-29`. -/
def Arrays.recordInternal (a : Arrays) (line : Bytes) : Arrays :=
  if field 1 line = str "module" ∧ field 2 line ≠ internal ∧ field 3 line = internal then
    { a with
      file2internals := append a.file2internals (field 4 line) (field 2 line)
      mod2cost := Function.update a.mod2cost (field 2 line) (field 5 line) }
  else a

/-- A module between two character sets, `support/scripts/expunge-gconv-modules:30-33`. -/
def Arrays.recordBetween (a : Arrays) (line : Bytes) : Arrays :=
  if field 1 line = str "module" ∧ field 2 line ≠ internal ∧ field 3 line ≠ internal then
    { a with
      file2cset := append a.file2cset (field 4 line) (field 2 line ++ 58 :: field 3 line)
      mod2cost := Function.update a.mod2cost (field 2 line) (field 5 line) }
  else a

/-- The rules for a line. -/
def Arrays.record (a : Arrays) (line : Bytes) : Arrays :=
  ((a.recordAlias line).recordInternal line).recordBetween line

/-- A line that is printed. -/
inductive Line
  | comment (file : Bytes)
  | aliasFor (name charset : Bytes)
  | module (fromset toset file : Bytes) (cost : Int)
  | blank
  deriving DecidableEq

/-- The text of a line. -/
def Line.text : Line → Bytes
  | comment file => str "# Modules and aliases for: " ++ file
  | aliasFor name charset => str "alias" ++ 9 :: name ++ 9 :: charset
  | module fromset toset file cost =>
    str "module" ++ 9 :: fromset ++ 9 :: toset ++ 9 :: file ++ 9 :: showInt cost
  | blank => []

variable (number : Bytes → Int)

/-- The aliases of a character set and its two directives,
`support/scripts/expunge-gconv-modules:41-48`. -/
def Arrays.printInternal (a : Arrays) (file mod : Bytes) : List Line :=
  (splitWords (a.aliases mod)).map (Line.aliasFor · mod) ++
    [.module mod internal file (number (a.mod2cost mod)),
      .module internal mod file (number (a.mod2cost mod)), .blank]

/-- The directive of two character sets, `support/scripts/expunge-gconv-modules:53-54`. -/
def Arrays.printBetween (a : Arrays) (file cset : Bytes) : Line :=
  let cs := cset.splitOn 58
  .module (cs.getD 0 []) (cs.getD 1 []) file (number (a.mod2cost (cs.getD 0 [])))

/-- A file of the list, `support/scripts/expunge-gconv-modules:38-56`. -/
def Arrays.printFile (a : Arrays) (file : Bytes) : List Line :=
  let mods := splitWords (a.file2internals file)
  let csets := splitWords (a.file2cset file)
  .comment file :: mods.flatMap (a.printInternal number file) ++
    (if mods.length ≠ 0 then [.blank] else []) ++
    csets.map (a.printBetween number file) ++
    if csets.length ≠ 0 then [.blank, .blank] else []

/-- The lines that are printed for the files of a list,
`support/scripts/expunge-gconv-modules:22-59`. -/
def expunge (files input : Bytes) : List Line :=
  (splitWords files).flatMap (((lines input).foldl Arrays.record .empty).printFile number)

/-- What the script writes. -/
def output (files input : Bytes) : Bytes := unlines ((expunge number files input).map Line.text)

/-! ### Directives -/

/-- `module FROMSET TOSET FILENAME COST`. A cost that is omitted is the number of an empty field. -/
structure Module where
  fromset : Bytes
  toset : Bytes
  filename : Bytes
  cost : Int
  deriving DecidableEq

/-- `alias ALIAS REALNAME`. -/
structure Alias where
  name : Bytes
  realname : Bytes
  deriving DecidableEq

/-- The module directive of a line. -/
def readModule (line : Bytes) : Option Module :=
  if field 1 line = str "module" then
    some ⟨field 2 line, field 3 line, field 4 line, number (field 5 line)⟩
  else none

/-- The alias directive of a line. -/
def readAlias (line : Bytes) : Option Alias :=
  if field 1 line = str "alias" then some ⟨field 2 line, field 3 line⟩ else none

/-- The module directives of a file. -/
def modules (input : Bytes) : List Module := (lines input).filterMap (readModule number)

/-- The alias directives of a file. -/
def aliases (input : Bytes) : List Alias := (lines input).filterMap readAlias

/-- The module directives that are printed. -/
def printedModules (out : List Line) : List Module :=
  out.filterMap fun
    | .module fromset toset file cost => some ⟨fromset, toset, file, cost⟩
    | _ => none

/-- The alias directives that are printed. -/
def printedAliases (out : List Line) : List Alias :=
  out.filterMap fun
    | .aliasFor name charset => some ⟨name, charset⟩
    | _ => none

variable {number}

/-- A printed directive is read as the directive that it is. -/
theorem readModule_text {fromset toset file : Bytes} (cost : Int)
    (hwords : ∀ w ∈ [fromset, toset, file], w ≠ [] ∧ ∀ b ∈ w, isBlank b = false) :
    readModule number (Line.module fromset toset file cost).text =
      some ⟨fromset, toset, file, number (showInt cost)⟩ := by
  have hword : ∀ w ∈ [fromset, toset, file], splitWords w = [w] :=
    fun w hw ↦ splitWords_word (hwords w hw).1 (hwords w hw).2
  have hmodule : splitWords (str "module") = [str "module"] := by decide
  have hcost : splitWords (showInt cost) = [showInt cost] :=
    splitWords_plain (showInt_ne_nil cost) fun _ ↦ isPlain_of_mem_showInt
  have hfields : splitWords (Line.module fromset toset file cost).text =
      [str "module", fromset, toset, file, showInt cost] := by
    have htab : isBlank 9 = true := rfl
    simp only [Line.text, List.append_assoc, List.cons_append]
    rw [splitWords_append_of_blank htab, splitWords_append_of_blank htab,
      splitWords_append_of_blank htab, splitWords_append_of_blank htab, hmodule, hcost,
      hword fromset (by simp), hword toset (by simp), hword file (by simp)]
    rfl
  simp [readModule, field, hfields]

/-! ### The arrays -/

variable {a : Arrays} {line w X : Bytes} {n k : Nat}

/-- A field has no blank in it. -/
theorem isBlank_of_mem_field : ∀ b ∈ field n line, isBlank b = false := by
  rw [field]
  cases hw : (splitWords line)[n - 1]? with
  | none => simp
  | some w => exact (of_mem_splitWords (List.mem_of_getElem? hw)).2

/-- There is no field behind an empty one. -/
theorem field_ne_nil (hnk : n ≤ k) (hk : field k line ≠ []) : field n line ≠ [] := by
  have hlt : k - 1 < (splitWords line).length := by
    by_contra hge
    apply hk
    rw [field, List.getElem?_eq_none (not_lt.mp hge)]
    rfl
  have hget : (splitWords line)[n - 1]? = some (splitWords line)[n - 1] :=
    List.getElem?_eq_getElem (by omega)
  have hmem : (splitWords line)[n - 1] ∈ splitWords line := List.getElem_mem _
  rw [field, hget, Option.getD_some]
  exact ne_nil_of_mem_splitWords hmem

/-- The fields in front of one that is not empty are words. -/
theorem field_word (hnk : n ≤ k) (hk : field k line ≠ []) :
    field n line ≠ [] ∧ ∀ b ∈ field n line, isBlank b = false :=
  ⟨field_ne_nil hnk hk, isBlank_of_mem_field⟩

/-- What the rules do with the aliases. -/
theorem aliases_record : (a.record line).aliases =
    if field 1 line = str "alias" then append a.aliases (field 3 line) (field 2 line)
    else a.aliases := by
  unfold Arrays.record Arrays.recordBetween Arrays.recordInternal Arrays.recordAlias
  split <;> split <;> split <;> rfl

/-- What the rules do with the modules to the internal representation. -/
theorem file2internals_record : (a.record line).file2internals =
    if field 1 line = str "module" ∧ field 2 line ≠ internal ∧ field 3 line = internal then
      append a.file2internals (field 4 line) (field 2 line)
    else a.file2internals := by
  unfold Arrays.record Arrays.recordBetween Arrays.recordInternal Arrays.recordAlias
  split <;> split <;> split <;> rfl

/-- What the rules do with the modules between character sets. -/
theorem file2cset_record : (a.record line).file2cset =
    if field 1 line = str "module" ∧ field 2 line ≠ internal ∧ field 3 line ≠ internal then
      append a.file2cset (field 4 line) (field 2 line ++ 58 :: field 3 line)
    else a.file2cset := by
  unfold Arrays.record Arrays.recordBetween Arrays.recordInternal Arrays.recordAlias
  split <;> split <;> split <;> rfl

/-- What the rules do with the costs. -/
theorem mod2cost_record : (a.record line).mod2cost =
    if field 1 line = str "module" ∧ field 2 line ≠ internal then
      Function.update a.mod2cost (field 2 line) (field 5 line)
    else a.mod2cost := by
  unfold Arrays.record Arrays.recordBetween Arrays.recordInternal Arrays.recordAlias
  by_cases hto : field 3 line = internal
  · simp only [hto, and_true, ne_eq, not_true_eq_false, and_false, if_false]
    split <;> split <;> rfl
  · simp only [hto, and_false, if_false, ne_eq, not_false_eq_true, and_true]
    split <;> split <;> rfl

/-- The words of an element of an array that has been appended to, unless the key is empty. -/
theorem mem_append_iff {f : Bytes → Bytes} {key v : Bytes}
    (hv : key ≠ [] → v ≠ [] ∧ ∀ b ∈ v, isBlank b = false) (hX : X ≠ []) :
    w ∈ splitWords (append f key v X) ↔ w ∈ splitWords (f X) ∨ (v = w ∧ key = X) := by
  rw [append]
  by_cases hkey : X = key
  · obtain ⟨hne, hblank⟩ := hv (hkey ▸ hX)
    rw [hkey, Function.update_self, splitWords_append, splitWords_word hne hblank,
      List.mem_append, List.mem_singleton]
    simp [eq_comm]
  · rw [Function.update_of_ne hkey]
    simp [Ne.symm hkey]

/-- The arrays behind some lines. -/
def gathered (ls : List Bytes) : Arrays := ls.foldl Arrays.record .empty

theorem gathered_concat (ls : List Bytes) (line : Bytes) :
    gathered (ls ++ [line]) = (gathered ls).record line := by
  rw [gathered, List.foldl_append]
  rfl

/-- The aliases that are gathered for a character set. -/
theorem mem_aliases_iff (ls : List Bytes) (hX : X ≠ []) :
    w ∈ splitWords ((gathered ls).aliases X) ↔ ⟨w, X⟩ ∈ ls.filterMap readAlias := by
  induction ls using List.reverseRecOn with
  | nil => exact iff_of_false List.not_mem_nil List.not_mem_nil
  | append_singleton ls line ih =>
    rw [gathered_concat, aliases_record, List.filterMap_append, List.mem_append, ← ih]
    by_cases hline : field 1 line = str "alias"
    · rw [if_pos hline, mem_append_iff (field_word (by decide)) hX]
      simp [readAlias, hline, eq_comm]
    · rw [if_neg hline]
      simp [readAlias, hline]

/-- The directive of one line. -/
theorem mem_filterMap_singleton {m : Module} : m ∈ [line].filterMap (readModule number) ↔
    field 1 line = str "module" ∧ field 2 line = m.fromset ∧ field 3 line = m.toset ∧
      field 4 line = m.filename ∧ number (field 5 line) = m.cost := by
  rw [List.mem_filterMap]
  simp only [List.mem_singleton, exists_eq_left, readModule]
  obtain ⟨fromset, toset, file, cost⟩ := m
  split
  · next h => simp [h]
  · next h => simp [h]

/-- The character sets that are gathered for a file. -/
theorem mem_internals_iff (number : Bytes → Int) (ls : List Bytes) (hX : X ≠ []) :
    w ∈ splitWords ((gathered ls).file2internals X) ↔
      w ≠ internal ∧ ∃ cost, ⟨w, internal, X, cost⟩ ∈ ls.filterMap (readModule number) := by
  induction ls using List.reverseRecOn with
  | nil => exact iff_of_false List.not_mem_nil fun ⟨_, _, h⟩ ↦ List.not_mem_nil h
  | append_singleton ls line ih =>
    rw [gathered_concat, file2internals_record]
    simp only [List.filterMap_append, List.mem_append, exists_or, and_or_left, ← ih,
      mem_filterMap_singleton]
    by_cases hline : field 1 line = str "module" ∧ field 2 line ≠ internal ∧ field 3 line = internal
    · rw [if_pos hline, mem_append_iff (field_word (by decide)) hX]
      obtain ⟨hmodule, hfrom, hto⟩ := hline
      refine or_congr_right ⟨?_, ?_⟩
      · rintro ⟨rfl, rfl⟩
        exact ⟨hfrom, _, hmodule, rfl, hto, rfl, rfl⟩
      · rintro ⟨-, _, -, rfl, -, rfl, -⟩
        exact ⟨rfl, rfl⟩
    · rw [if_neg hline, or_iff_left]
      rintro ⟨hw, _, hmodule, rfl, hto, -⟩
      exact hline ⟨hmodule, hw, hto⟩

/-- The pairs of character sets that are gathered for a file. -/
theorem mem_cset_iff (number : Bytes → Int) (ls : List Bytes) (hX : X ≠ []) :
    w ∈ splitWords ((gathered ls).file2cset X) ↔ ∃ fromset toset, fromset ≠ internal ∧
      toset ≠ internal ∧ fromset ++ 58 :: toset = w ∧
        ∃ cost, ⟨fromset, toset, X, cost⟩ ∈ ls.filterMap (readModule number) := by
  induction ls using List.reverseRecOn with
  | nil => exact iff_of_false List.not_mem_nil fun ⟨_, _, _, _, _, _, h⟩ ↦ List.not_mem_nil h
  | append_singleton ls line ih =>
    rw [gathered_concat, file2cset_record]
    simp only [List.filterMap_append, List.mem_append, exists_or, and_or_left, ← ih,
      mem_filterMap_singleton]
    by_cases hline : field 1 line = str "module" ∧ field 2 line ≠ internal ∧ field 3 line ≠ internal
    · have hname : field 4 line ≠ [] → field 2 line ++ 58 :: field 3 line ≠ [] ∧
          ∀ b ∈ field 2 line ++ 58 :: field 3 line, isBlank b = false := by
        refine fun _ ↦ ⟨by simp, fun b hb ↦ ?_⟩
        rcases List.mem_append.mp hb with hb | hb
        · exact isBlank_of_mem_field b hb
        · rcases List.mem_cons.mp hb with rfl | hb
          · rfl
          · exact isBlank_of_mem_field b hb
      rw [if_pos hline, mem_append_iff hname hX]
      obtain ⟨hmodule, hfrom, hto⟩ := hline
      refine or_congr_right ⟨?_, ?_⟩
      · rintro ⟨rfl, rfl⟩
        exact ⟨_, _, hfrom, hto, rfl, _, hmodule, rfl, rfl, rfl, rfl⟩
      · rintro ⟨_, _, -, -, rfl, _, -, rfl, rfl, rfl, -⟩
        exact ⟨rfl, rfl⟩
    · rw [if_neg hline, or_iff_left]
      rintro ⟨_, _, hfrom, hto, -, _, hmodule, rfl, rfl, -⟩
      exact hline ⟨hmodule, hfrom, hto⟩

variable (number) in
/-- The cost of the last directive from a character set, whatever its module. -/
def lastCost (ms : List Module) (fromset : Bytes) : Int :=
  (((ms.filter (·.fromset = fromset)).getLast?).map Module.cost).getD (number [])

/-- The cost that is kept for a character set. -/
theorem number_mod2cost (ls : List Bytes) (hX : X ≠ internal) :
    number ((gathered ls).mod2cost X) = lastCost number (ls.filterMap (readModule number)) X := by
  induction ls using List.reverseRecOn with
  | nil => rfl
  | append_singleton ls line ih =>
    rw [gathered_concat, mod2cost_record, List.filterMap_append, lastCost, List.filter_append]
    by_cases hmodule : field 1 line = str "module"
    · have hread : [line].filterMap (readModule number) =
          [⟨field 2 line, field 3 line, field 4 line, number (field 5 line)⟩] := by
        simp [readModule, hmodule]
      rw [hread]
      by_cases hfrom : field 2 line = X
      · rw [if_pos ⟨hmodule, hfrom ▸ hX⟩, hfrom, Function.update_self]
        simp
      · have hkept : (if field 1 line = str "module" ∧ field 2 line ≠ internal then
            Function.update (gathered ls).mod2cost (field 2 line) (field 5 line)
            else (gathered ls).mod2cost) X = (gathered ls).mod2cost X := by
          split
          · exact Function.update_of_ne (Ne.symm hfrom) _ _
          · rfl
        rw [hkept, ih, lastCost]
        simp [hfrom]
    · have hread : [line].filterMap (readModule number) = [] := by simp [readModule, hmodule]
      rw [if_neg fun h ↦ hmodule h.1, hread, ih, lastCost]
      simp

/-! ### What is printed -/

variable {files input : Bytes}

/-- The two character sets of a pair that has been split at its first colons. -/
def splitPair (fromset toset : Bytes) : Bytes × Bytes :=
  (((fromset ++ 58 :: toset).splitOn 58).getD 0 [], ((fromset ++ 58 :: toset).splitOn 58).getD 1 [])

/-- A pair without colons in its sets. -/
theorem splitPair_eq {fromset toset : Bytes} (hfrom : 58 ∉ fromset) (hto : 58 ∉ toset) :
    splitPair fromset toset = (fromset, toset) := by
  rw [splitPair, List.splitOn_append_cons_self_of_not_mem hfrom, List.splitOn_eq_singleton hto]
  rfl

/-- There is no colon in what a pair is split into. -/
theorem notMem_splitPair (fromset toset : Bytes) :
    58 ∉ (splitPair fromset toset).1 ∧ 58 ∉ (splitPair fromset toset).2 := by
  have hget : ∀ n, 58 ∉ ((fromset ++ 58 :: toset).splitOn 58).getD n [] := by
    intro n hmem
    rw [List.getD_eq_getElem?_getD] at hmem
    cases hpiece : ((fromset ++ 58 :: toset).splitOn 58)[n]? with
    | none =>
      rw [hpiece] at hmem
      cases hmem
    | some piece =>
      rw [hpiece, Option.getD_some] at hmem
      have hpieces := List.mem_of_getElem? hpiece
      rw [List.splitOn_eq_splitOnP] at hpieces
      exact absurd ((of_mem_splitOnP hpieces).2 58 hmem) (by decide)
  exact ⟨hget 0, hget 1⟩

/-- The directives among lines. -/
theorem mem_printedModules {out : List Line} {m : Module} : m ∈ printedModules out ↔
    .module m.fromset m.toset m.filename m.cost ∈ out := by
  rw [printedModules, List.mem_filterMap]
  constructor
  · rintro ⟨l, hl, hm⟩
    cases l with
    | module =>
      obtain rfl := Option.some.inj hm
      exact hl
    | _ => cases hm
  · exact fun hl ↦ ⟨_, hl, rfl⟩

/-- The aliases among lines. -/
theorem mem_printedAliases {out : List Line} {al : Alias} : al ∈ printedAliases out ↔
    .aliasFor al.name al.realname ∈ out := by
  rw [printedAliases, List.mem_filterMap]
  constructor
  · rintro ⟨l, hl, hal⟩
    cases l with
    | aliasFor =>
      obtain rfl := Option.some.inj hal
      exact hl
    | _ => cases hal
  · exact fun hl ↦ ⟨_, hl, rfl⟩

/-- The lines that set blocks apart are blank. -/
theorem mem_blanks {l : Line} (hl : l ≠ .blank) (n : Nat) :
    (l ∈ if n ≠ 0 then [Line.blank] else []) = False ∧
      (l ∈ if n ≠ 0 then [Line.blank, .blank] else []) = False := by
  constructor <;> split <;> simp [hl]

/-- The lines of a file that are directives for modules. -/
theorem module_mem_printFile {file fromset toset file' : Bytes} {cost : Int} :
    .module fromset toset file' cost ∈ a.printFile number file ↔ file' = file ∧
      ((fromset ∈ splitWords (a.file2internals file) ∧ toset = internal ∧
          cost = number (a.mod2cost fromset)) ∨
        (fromset = internal ∧ toset ∈ splitWords (a.file2internals file) ∧
          cost = number (a.mod2cost toset)) ∨
        ∃ cset ∈ splitWords (a.file2cset file), fromset = (cset.splitOn 58).getD 0 [] ∧
          toset = (cset.splitOn 58).getD 1 [] ∧ cost = number (a.mod2cost fromset)) := by
  have hblank : Line.module fromset toset file' cost ≠ .blank := nofun
  simp only [Arrays.printFile, Arrays.printInternal, Arrays.printBetween, List.mem_append,
    List.mem_cons, List.mem_flatMap, List.mem_map, reduceCtorEq, false_or, or_false, and_false,
    exists_false, List.not_mem_nil, Line.module.injEq, (mem_blanks hblank _).1,
    (mem_blanks hblank _).2]
  constructor
  · rintro (⟨mod, hmod, ⟨rfl, rfl, rfl, rfl⟩ | ⟨rfl, rfl, rfl, rfl⟩⟩ |
      ⟨cset, hcset, rfl, rfl, rfl, rfl⟩)
    · exact ⟨rfl, .inl ⟨hmod, rfl, rfl⟩⟩
    · exact ⟨rfl, .inr (.inl ⟨rfl, hmod, rfl⟩)⟩
    · exact ⟨rfl, .inr (.inr ⟨cset, hcset, rfl, rfl, rfl⟩)⟩
  · rintro ⟨rfl, ⟨hmod, rfl, rfl⟩ | ⟨rfl, hmod, rfl⟩ | ⟨cset, hcset, rfl, rfl, rfl⟩⟩
    · exact .inl ⟨_, hmod, .inl ⟨rfl, rfl, rfl, rfl⟩⟩
    · exact .inl ⟨_, hmod, .inr ⟨rfl, rfl, rfl, rfl⟩⟩
    · exact .inr ⟨cset, hcset, rfl, rfl, rfl, rfl⟩

/-- The lines of a file that are directives for aliases. -/
theorem aliasFor_mem_printFile {file name charset : Bytes} :
    .aliasFor name charset ∈ a.printFile number file ↔
      charset ∈ splitWords (a.file2internals file) ∧ name ∈ splitWords (a.aliases charset) := by
  have hblank : Line.aliasFor name charset ≠ .blank := nofun
  simp only [Arrays.printFile, Arrays.printInternal, Arrays.printBetween, List.mem_append,
    List.mem_cons, List.mem_flatMap, List.mem_map, reduceCtorEq, false_or, or_false, and_false,
    exists_false, List.not_mem_nil, Line.aliasFor.injEq, (mem_blanks hblank _).1,
    (mem_blanks hblank _).2]
  constructor
  · rintro ⟨mod, hmod, name, hname, rfl, rfl⟩
    exact ⟨hmod, hname⟩
  · rintro ⟨hmod, hname⟩
    exact ⟨charset, hmod, name, hname, rfl, rfl⟩

/-- The directives that are printed. -/
theorem mem_printedModules_expunge {m : Module} :
    m ∈ printedModules (expunge number files input) ↔ m.filename ∈ splitWords files ∧
      ((m.fromset ≠ internal ∧ m.toset = internal ∧
          m.cost = lastCost number (modules number input) m.fromset ∧
          ∃ cost, ⟨m.fromset, internal, m.filename, cost⟩ ∈ modules number input) ∨
        (m.fromset = internal ∧ m.toset ≠ internal ∧
          m.cost = lastCost number (modules number input) m.toset ∧
          ∃ cost, ⟨m.toset, internal, m.filename, cost⟩ ∈ modules number input) ∨
        ∃ fromset toset, fromset ≠ internal ∧ toset ≠ internal ∧
          (m.fromset, m.toset) = splitPair fromset toset ∧
          m.cost = number ((gathered (lines input)).mod2cost m.fromset) ∧
          ∃ cost, ⟨fromset, toset, m.filename, cost⟩ ∈ modules number input) := by
  rw [mem_printedModules, expunge, List.mem_flatMap]
  simp only [module_mem_printFile]
  constructor
  · rintro ⟨file, hfile, rfl, hprinted⟩
    refine ⟨hfile, ?_⟩
    have hne := ne_nil_of_mem_splitWords hfile
    rcases hprinted with ⟨hmod, hto, hcost⟩ | ⟨hfrom, hmod, hcost⟩ | ⟨cset, hcset, hsplit⟩
    · obtain ⟨hfrom, hread⟩ := (mem_internals_iff number _ hne).mp hmod
      exact .inl ⟨hfrom, hto, hcost.trans (number_mod2cost _ hfrom), hread⟩
    · obtain ⟨hto, hread⟩ := (mem_internals_iff number _ hne).mp hmod
      exact .inr (.inl ⟨hfrom, hto, hcost.trans (number_mod2cost _ hto), hread⟩)
    · obtain ⟨fromset, toset, hfrom, hto, rfl, hread⟩ := (mem_cset_iff number _ hne).mp hcset
      obtain ⟨hfirst, hsecond, hcost⟩ := hsplit
      exact .inr (.inr ⟨fromset, toset, hfrom, hto, Prod.ext hfirst hsecond, hcost, hread⟩)
  · rintro ⟨hfile, hprinted⟩
    refine ⟨m.filename, hfile, rfl, ?_⟩
    have hne := ne_nil_of_mem_splitWords hfile
    rcases hprinted with ⟨hfrom, hto, hcost, hread⟩ | ⟨hfrom, hto, hcost, hread⟩ |
      ⟨fromset, toset, hfrom, hto, hsplit, hcost, hread⟩
    · exact .inl ⟨(mem_internals_iff number _ hne).mpr ⟨hfrom, hread⟩, hto,
        hcost.trans (number_mod2cost _ hfrom).symm⟩
    · exact .inr (.inl ⟨hfrom, (mem_internals_iff number _ hne).mpr ⟨hto, hread⟩,
        hcost.trans (number_mod2cost _ hto).symm⟩)
    · exact .inr (.inr ⟨_, (mem_cset_iff number _ hne).mpr ⟨fromset, toset, hfrom, hto, rfl, hread⟩,
        congrArg Prod.fst hsplit, congrArg Prod.snd hsplit, hcost⟩)

/-- The aliases that are printed. -/
theorem mem_printedAliases_expunge {al : Alias} :
    al ∈ printedAliases (expunge number files input) ↔ al ∈ aliases input ∧
      al.realname ≠ internal ∧ ∃ m ∈ modules number input, m.filename ∈ splitWords files ∧
        m.fromset = al.realname ∧ m.toset = internal := by
  rw [mem_printedAliases, expunge, List.mem_flatMap]
  simp only [aliasFor_mem_printFile]
  constructor
  · rintro ⟨file, hfile, hmod, hname⟩
    have hreal := ne_nil_of_mem_splitWords hmod
    obtain ⟨hne, cost, hread⟩ :=
      (mem_internals_iff number _ (ne_nil_of_mem_splitWords hfile)).mp hmod
    exact ⟨(mem_aliases_iff _ hreal).mp hname, hne, _, hread, hfile, rfl, rfl⟩
  · rintro ⟨hal, hne, m, hread, hfile, hfrom, hto⟩
    obtain ⟨fromset, toset, file, cost⟩ := m
    obtain rfl : fromset = al.realname := hfrom
    obtain rfl : toset = internal := hto
    have hmod := (mem_internals_iff number _ (ne_nil_of_mem_splitWords hfile)).mpr
      ⟨hne, cost, hread⟩
    exact ⟨file, hfile, hmod, (mem_aliases_iff _ (ne_nil_of_mem_splitWords hmod)).mpr hal⟩

/-! ### What is kept -/

/-- The printed directives are those of the file whose module is in the list, and the printed
aliases are those for a character set of one of these. -/
structure KeepsUsable (number : Bytes → Int) (files input : Bytes) : Prop where
  modules : ∀ m, m ∈ printedModules (expunge number files input) ↔
    m ∈ modules number input ∧ m.filename ∈ splitWords files
  aliases : ∀ al, al ∈ printedAliases (expunge number files input) ↔
    al ∈ aliases input ∧ ∃ m ∈ ExpungeGconvModules.modules number input,
      m.filename ∈ splitWords files ∧ (m.fromset = al.realname ∨ m.toset = al.realname)

/-- The directives for the modules of the list have what the arrays go by: a character set has one
cost, modules to the internal representation and from it come in pairs, the character sets of other
directives have no colons, and there are aliases only for those of the former. -/
structure Regular (number : Bytes → Int) (files input : Bytes) : Prop where
  cost : ∀ m ∈ modules number input, m.filename ∈ splitWords files → m.fromset ≠ internal →
    m.cost = lastCost number (modules number input) m.fromset
  toInternal : ∀ m ∈ modules number input, m.filename ∈ splitWords files → m.fromset ≠ internal →
    m.toset = internal → ⟨internal, m.fromset, m.filename, m.cost⟩ ∈ modules number input
  fromInternal : ∀ m ∈ modules number input, m.filename ∈ splitWords files →
    m.fromset = internal → m.toset ≠ internal ∧
      ⟨m.toset, internal, m.filename, m.cost⟩ ∈ modules number input
  colon : ∀ m ∈ modules number input, m.filename ∈ splitWords files → m.fromset ≠ internal →
    m.toset ≠ internal → 58 ∉ m.fromset ∧ 58 ∉ m.toset
  aliases : ∀ al ∈ aliases input, ∀ m ∈ modules number input, m.filename ∈ splitWords files →
    m.fromset = al.realname ∨ m.toset = al.realname → al.realname ≠ internal ∧
      ∃ m ∈ modules number input, m.filename ∈ splitWords files ∧ m.fromset = al.realname ∧
        m.toset = internal

section KeepsUsable

variable (h : KeepsUsable number files input) {m : Module}

include h

/-- The pairs that are printed are printed as they are. -/
theorem notMem_of_keepsUsable (hm : m ∈ modules number input)
    (hfile : m.filename ∈ splitWords files) (hfrom : m.fromset ≠ internal)
    (hto : m.toset ≠ internal) : 58 ∉ m.fromset ∧ 58 ∉ m.toset := by
  rcases (mem_printedModules_expunge.mp ((h.modules m).mpr ⟨hm, hfile⟩)).2 with
    ⟨-, hto', -⟩ | ⟨hfrom', -⟩ | ⟨fromset, toset, -, -, hsplit, -⟩
  · exact absurd hto' hto
  · exact absurd hfrom' hfrom
  · have hpieces := notMem_splitPair fromset toset
    rw [← hsplit] at hpieces
    exact hpieces

/-- The cost that is printed is the last one. -/
theorem cost_of_keepsUsable (hm : m ∈ modules number input) (hfile : m.filename ∈ splitWords files)
    (hfrom : m.fromset ≠ internal) : m.cost = lastCost number (modules number input) m.fromset := by
  rcases (mem_printedModules_expunge.mp ((h.modules m).mpr ⟨hm, hfile⟩)).2 with
    ⟨-, -, hcost, -⟩ | ⟨hfrom', -⟩ | ⟨_, _, -, -, -, hcost, -⟩
  · exact hcost
  · exact absurd hfrom' hfrom
  · exact hcost.trans (number_mod2cost _ hfrom)

/-- The way back is printed, so it has been read. -/
theorem toInternal_of_keepsUsable (hm : m ∈ modules number input)
    (hfile : m.filename ∈ splitWords files) (hfrom : m.fromset ≠ internal)
    (hto : m.toset = internal) :
    ⟨internal, m.fromset, m.filename, m.cost⟩ ∈ modules number input := by
  have hread : (⟨m.fromset, internal, m.filename, m.cost⟩ : Module) ∈ modules number input := by
    rw [← hto]
    exact hm
  have hback : (⟨internal, m.fromset, m.filename, m.cost⟩ : Module) ∈
      printedModules (expunge number files input) :=
    mem_printedModules_expunge.mpr
      ⟨hfile, .inr (.inl ⟨rfl, hfrom, cost_of_keepsUsable h hm hfile hfrom, _, hread⟩)⟩
  exact ((h.modules _).mp hback).1

/-- A module from the internal representation is printed for one to it. -/
theorem fromInternal_of_keepsUsable (hm : m ∈ modules number input)
    (hfile : m.filename ∈ splitWords files) (hfrom : m.fromset = internal) :
    m.toset ≠ internal ∧ ⟨m.toset, internal, m.filename, m.cost⟩ ∈ modules number input := by
  rcases (mem_printedModules_expunge.mp ((h.modules m).mpr ⟨hm, hfile⟩)).2 with ⟨hfrom', -⟩ |
    ⟨-, hto, hlast, cost, hread⟩ | ⟨fromset, toset, hfrom', hto', hsplit, -, cost, hread⟩
  · exact absurd hfrom hfrom'
  · refine ⟨hto, ?_⟩
    rw [hlast, ← cost_of_keepsUsable h hread hfile hto]
    exact hread
  · obtain ⟨hfirst, hsecond⟩ := notMem_of_keepsUsable h hread hfile hfrom' hto'
    rw [splitPair_eq hfirst hsecond] at hsplit
    exact absurd ((Prod.mk.inj hsplit).1.symm.trans hfrom) hfrom'

end KeepsUsable

section Regular

variable (h : Regular number files input) {m : Module}

include h

/-- What is printed has been read as it is. -/
theorem mem_modules_of_printed (hm : m ∈ printedModules (expunge number files input)) :
    m ∈ modules number input := by
  obtain ⟨hfile, ⟨hfrom, hto, hlast, cost, hread⟩ | ⟨hfrom, hto, hlast, cost, hread⟩ |
    ⟨fromset, toset, hfrom, hto, hsplit, hlast, cost, hread⟩⟩ := mem_printedModules_expunge.mp hm
  · have hsame : m.cost = cost := hlast.trans (h.cost _ hread hfile hfrom).symm
    rw [← hto, ← hsame] at hread
    exact hread
  · have hsame : m.cost = cost := hlast.trans (h.cost _ hread hfile hto).symm
    have hback := h.toInternal _ hread hfile hto rfl
    rw [← hfrom, ← hsame] at hback
    exact hback
  · obtain ⟨hfirst, hsecond⟩ : 58 ∉ fromset ∧ 58 ∉ toset := h.colon _ hread hfile hfrom hto
    rw [splitPair_eq hfirst hsecond, Prod.mk.injEq] at hsplit
    have hkept : number ((gathered (lines input)).mod2cost m.fromset) =
        lastCost number (modules number input) fromset := by
      rw [hsplit.1]
      exact number_mod2cost _ hfrom
    have hsame : m.cost = cost := (hlast.trans hkept).trans (h.cost _ hread hfile hfrom).symm
    rw [← hsplit.1, ← hsplit.2, ← hsame] at hread
    exact hread

/-- What has been read for a file of the list is printed. -/
theorem mem_printed_of_mem (hm : m ∈ modules number input) (hfile : m.filename ∈ splitWords files) :
    m ∈ printedModules (expunge number files input) := by
  refine mem_printedModules_expunge.mpr ⟨hfile, ?_⟩
  by_cases hfrom : m.fromset = internal
  · obtain ⟨hto, hread⟩ := h.fromInternal m hm hfile hfrom
    exact .inr (.inl ⟨hfrom, hto, h.cost _ hread hfile hto, _, hread⟩)
  · have hlast := h.cost m hm hfile hfrom
    by_cases hto : m.toset = internal
    · exact .inl ⟨hfrom, hto, hlast, m.cost, hto ▸ hm⟩
    · obtain ⟨hfirst, hsecond⟩ := h.colon m hm hfile hfrom hto
      exact .inr (.inr ⟨_, _, hfrom, hto, (splitPair_eq hfirst hsecond).symm,
        hlast.trans (number_mod2cost _ hfrom).symm, _, hm⟩)

end Regular

/-- What is usable is kept exactly from regular files. -/
theorem keepsUsable_iff (number : Bytes → Int) (files input : Bytes) :
    KeepsUsable number files input ↔ Regular number files input := by
  constructor
  · intro h
    refine ⟨fun _ ↦ cost_of_keepsUsable h, fun _ ↦ toInternal_of_keepsUsable h,
      fun _ ↦ fromInternal_of_keepsUsable h, fun _ ↦ notMem_of_keepsUsable h, ?_⟩
    intro al hal m hm hfile hset
    have hkept := (h.aliases al).mpr ⟨hal, m, hm, hfile, hset⟩
    exact (mem_printedAliases_expunge.mp hkept).2
  · intro h
    constructor
    · intro m
      constructor
      · intro hm
        exact ⟨mem_modules_of_printed h hm, (mem_printedModules_expunge.mp hm).1⟩
      · rintro ⟨hm, hfile⟩
        exact mem_printed_of_mem h hm hfile
    · intro al
      rw [mem_printedAliases_expunge]
      constructor
      · rintro ⟨hal, -, m, hm, hfile, hfrom, -⟩
        exact ⟨hal, m, hm, hfile, .inl hfrom⟩
      · rintro ⟨hal, m, hm, hfile, hset⟩
        exact ⟨hal, h.aliases al hal m hm hfile hset⟩

/-- The number of a field that is a decimal number or empty. -/
def decimal (s : Bytes) : Int := (parseDigits s).getD 0

/-- A character set with one module to the internal representation and another one to a second
character set, at different costs. -/
def twoCosts : Bytes :=
  unlines [str "module\tA//\tINTERNAL\tA\t1", str "module\tINTERNAL\tA//\tA\t1",
    str "module\tA//\tB//\tAB\t5"]

/-- The directives of the first module get the cost of the second one. -/
theorem twoCosts_printed :
    expunge decimal (str "A AB") twoCosts =
      [.comment (str "A"), .module (str "A//") internal (str "A") 5,
        .module internal (str "A//") (str "A") 5, .blank, .blank, .comment (str "AB"),
        .module (str "A//") (str "B//") (str "AB") 5, .blank, .blank] ∧
    modules decimal twoCosts =
      [⟨str "A//", internal, str "A", 1⟩, ⟨internal, str "A//", str "A", 1⟩,
        ⟨str "A//", str "B//", str "AB", 5⟩] ∧
    ¬ KeepsUsable decimal (str "A AB") twoCosts := by
  have hprinted : expunge decimal (str "A AB") twoCosts =
      [.comment (str "A"), .module (str "A//") internal (str "A") 5,
        .module internal (str "A//") (str "A") 5, .blank, .blank, .comment (str "AB"),
        .module (str "A//") (str "B//") (str "AB") 5, .blank, .blank] := by decide +kernel
  have hmodules : modules decimal twoCosts =
      [⟨str "A//", internal, str "A", 1⟩, ⟨internal, str "A//", str "A", 1⟩,
        ⟨str "A//", str "B//", str "AB", 5⟩] := by decide +kernel
  refine ⟨hprinted, hmodules, fun h ↦ ?_⟩
  have hkept := (h.modules ⟨str "A//", internal, str "A", 5⟩).mp
    (by rw [hprinted]; decide +kernel)
  rw [hmodules] at hkept
  exact absurd hkept.1 (by decide +kernel)

end MotionPie.Support.ExpungeGconvModules
