import MotionPie.Package.Motioneye.Dates
import MotionPie.Shell.Word

/-!
# date.conf in the boot script

`S60date` sources `date.conf`, in which the values stand without quotes. The getter and the shell
both read the host that was written if and only if it is plain: there is nothing in it that the one
splits or strips or that the other expands, removes or runs.
-/

namespace MotionPie.Board.Common

open Base Shell Package.Motioneye.Dates
open Package.Motioneye.Watchctl (stripByte stripByte_of_notMem)

/-! ### The script -/

/-- The variables that `S60date` sets, `S60date:3-18`. -/
def dateDefaults : List (Bytes × Bytes) :=
  [(str "sys_conf", str "/etc/date.conf"),
    (str "conf", str "/data/etc/date.conf"),
    (str "date_timeout", str "10"),
    (str "date_method", str "http"),
    (str "date_host", str "google.com"),
    (str "date_interval", str "900")]

/-- The variables of `S60date` after `date.conf`, `S60date:3-20`. -/
def date (homes : Homes) (vars : Vars) (conf : Bytes) : Option Vars :=
  sourceWords homes (setVars vars dateDefaults) conf

/-! ### Hosts -/

/-- The method is one of the choices. -/
def IsMethod (method : Bytes) : Prop := method = str "http" ∨ method = str "ntp"

/-- A host that means the same to Python and to the shell. -/
structure PlainHost (host : Bytes) : Prop where
  equals : 61 ∉ host
  nul : 0 ∉ host
  last : ∀ b ∈ host.getLast?, isSpace b = false
  bare : Bare true host

/-- The getter returns the host that has been set, and sourcing the file sets the four variables to
the values that were given and does nothing else, whatever the variables and the home directories
are. -/
structure KeepsHost (s : DateSettings) : Prop where
  getter : ∃ s', getDateSettings (some (setDateSettings s.dict)) = .ok s' ∧ s'.dateHost = s.dateHost
  shell : ∀ homes vars, date homes vars (setDateSettings s.dict) =
    some (setVars (setVars vars dateDefaults) s.assignments)

variable {s : DateSettings} {value : Bytes}

theorem isPlain_of_isMethod (h : IsMethod value) : ∀ b ∈ value, isPlain b = true := by
  rcases h with rfl | rfl
  · decide
  · decide

/-- The lines that the setter writes. -/
theorem setDateSettings_dict (s : DateSettings) :
    setDateSettings s.dict = unlines (s.assignments.map fun a ↦ dateLine a.1 a.2) := rfl

/-- The lines have no terminator inside. -/
theorem newline_notMem_lines (hmethod : IsMethod s.dateMethod) (hhost : newline ∉ s.dateHost) :
    ∀ l ∈ s.assignments.map fun a ↦ dateLine a.1 a.2, newline ∉ l := by
  have hplain : ∀ {v : Bytes}, (∀ b ∈ v, isPlain b = true) → newline ∉ v :=
    fun h ↦ notMem_of_isPlain h (by decide)
  have hline : ∀ {name v : Bytes}, newline ∉ name → newline ∉ v → newline ∉ dateLine name v := by
    intro name v hname hv
    simpa [dateLine, hname, hv] using (show newline ≠ 61 by decide)
  simp only [DateSettings.assignments, List.map_cons, List.map_nil, List.forall_mem_cons]
  exact ⟨hline (by decide) (hplain (isPlain_of_isMethod hmethod)), hline (by decide) hhost,
    hline (by decide) (hplain fun b hb ↦ isPlain_of_mem_showInt hb),
    hline (by decide) (hplain fun b hb ↦ isPlain_of_mem_showInt hb), fun _ h ↦ by cases h⟩

/-! ### The getter -/

/-- Without white space at its end a text is not shortened. -/
theorem rdropWhile_eq_self_iff_getLast? :
    value.rdropWhile isSpace = value ↔ ∀ b ∈ value.getLast?, isSpace b = false := by
  rw [List.rdropWhile_eq_self_iff]
  constructor
  · intro h b hb
    obtain ⟨hne, rfl⟩ := List.mem_getLast?_eq_getLast hb
    exact Bool.eq_false_iff.mpr (h hne)
  · intro h hne
    exact Bool.eq_false_iff.mp (h _ (List.getLast_mem_getLast? hne))

/-- A value without white space at its end and without quotes is read as it is. -/
theorem stripQuotes_eq_self (hlast : ∀ b ∈ value.getLast?, isSpace b = false)
    (hdouble : 34 ∉ value) (hsingle : 39 ∉ value) :
    stripQuotes (value.rdropWhile isSpace) = value := by
  rw [rdropWhile_eq_self_iff_getLast?.mpr hlast, stripQuotes, stripByte_of_notMem hdouble,
    stripByte_of_notMem hsingle]

/-- A plain word is read as it is. -/
theorem stripQuotes_of_isPlain (h : ∀ b ∈ value, isPlain b = true) :
    stripQuotes (value.rdropWhile isSpace) = value := by
  apply stripQuotes_eq_self _ (notMem_of_isPlain h (by decide)) (notMem_of_isPlain h (by decide))
  exact fun b hb ↦ isSpace_of_isPlain (h b (List.mem_of_mem_getLast? hb))

/-- A value that is read as it was written has no white space at its end. -/
theorem getLast?_of_stripQuotes (h : stripQuotes (value.rdropWhile isSpace) = value) :
    ∀ b ∈ value.getLast?, isSpace b = false := by
  rw [← rdropWhile_eq_self_iff_getLast?]
  have hquotes : ∀ v : Bytes, (stripQuotes v).length ≤ v.length := by
    have hbyte : ∀ (b : UInt8) (v : Bytes), (stripByte b v).length ≤ v.length := fun b v ↦
      ((List.rdropWhile_prefix _ _).length_le).trans (List.dropWhile_suffix _).length_le
    exact fun v ↦ (hbyte 39 _).trans (hbyte 34 v)
  have hlength := hquotes (value.rdropWhile isSpace)
  rw [h] at hlength
  exact (List.rdropWhile_prefix isSpace value).eq_of_length_le hlength

/-- What the getter returns after the setter. -/
theorem getDateSettings_setDateSettings (hmethod : IsMethod s.dateMethod)
    (hhost : newline ∉ s.dateHost) :
    getDateSettings (some (setDateSettings s.dict)) = .ok { s with
      dateHost := if 61 ∈ s.dateHost then str "google.com"
        else stripQuotes (s.dateHost.rdropWhile isSpace) } := by
  have hplain := isPlain_of_isMethod hmethod
  have hint : ∀ n : Int, ∀ b ∈ showInt n, isPlain b = true := fun n b hb ↦ isPlain_of_mem_showInt hb
  have hread : ∀ {s' : DateSettings} {name v : Bytes}, IsName name →
      (∀ b ∈ v, isPlain b = true) →
      readLine s' (dateLine name v ++ [newline]) = readValue s' name v := by
    intro s' name v hname hv
    rw [readLine_dateLine hname, if_neg (notMem_of_isPlain hv (by decide)),
      stripQuotes_of_isPlain hv]
  have hname : IsName (str "date_method") ∧ IsName (str "date_host") ∧
      IsName (str "date_timeout") ∧ IsName (str "date_interval") := by
    refine ⟨?_, ?_, ?_, ?_⟩
    all_goals exact ⟨by decide, by decide, by decide⟩
  rw [getDateSettings, setDateSettings_dict, Option.getD_some,
    readlines_unlines (newline_notMem_lines hmethod hhost)]
  simp only [DateSettings.assignments, List.map_cons, List.map_nil, List.foldlM_cons,
    List.foldlM_nil, hread hname.1 hplain, hread hname.2.2.1 (hint _), hread hname.2.2.2 (hint _),
    readLine_dateLine hname.2.1]
  have hmethodValue : ∀ (s' : DateSettings) (v : Bytes),
      readValue s' (str "date_method") v = .ok { s' with dateMethod := v } := fun _ _ ↦ rfl
  have hhostValue : ∀ (s' : DateSettings) (v : Bytes),
      readValue s' (str "date_host") v = .ok { s' with dateHost := v } := fun _ _ ↦ rfl
  rw [hmethodValue]
  by_cases hequals : 61 ∈ s.dateHost
  · simp only [bind, Except.bind, if_pos hequals, readValue_dateTimeout,
      readValue_dateInterval]
    rfl
  · simp only [bind, Except.bind, if_neg hequals, hhostValue, readValue_dateTimeout,
      readValue_dateInterval]
    rfl

/-- The getter returns the host if and only if it has no equals sign, no white space at its end and
no quotes around it. -/
theorem getter_keeps_iff (hmethod : IsMethod s.dateMethod) (hhost : newline ∉ s.dateHost) :
    (∃ s', getDateSettings (some (setDateSettings s.dict)) = .ok s' ∧ s'.dateHost = s.dateHost) ↔
      61 ∉ s.dateHost ∧ stripQuotes (s.dateHost.rdropWhile isSpace) = s.dateHost := by
  rw [getDateSettings_setDateSettings hmethod hhost]
  constructor
  · rintro ⟨s', hs', hkept⟩
    cases hs'
    by_cases hequals : 61 ∈ s.dateHost
    · simp only [if_pos hequals] at hkept
      rw [← hkept] at hequals
      exact absurd hequals (by decide)
    · simp only [if_neg hequals] at hkept
      exact ⟨hequals, hkept⟩
  · rintro ⟨hequals, hkept⟩
    refine ⟨_, rfl, ?_⟩
    simp only [if_neg hequals, hkept]

/-! ### The shell -/

/-- The variables of the script have no marked bytes in their values. -/
theorem unmarked_setVars {vars : Vars} (hvars : Unmarked vars) {as : List (Bytes × Bytes)}
    (has : ∀ a ∈ as, a.2.countP isMarked = 0) : Unmarked (setVars vars as) := by
  induction as generalizing vars with
  | nil => exact hvars
  | cons a as ih =>
    rw [List.forall_mem_cons] at has
    change Unmarked (setVars (Function.update vars a.1 a.2) as)
    apply ih _ has.2
    intro n
    by_cases hn : n = a.1
    · rw [hn, Function.update_self]
      exact has.1
    · rw [Function.update_of_ne hn]
      exact hvars n

/-- Sourcing the file, from its second line on. -/
theorem date_eq (homes : Homes) (vars : Vars) (hmethod : IsMethod s.dateMethod)
    (hhost : newline ∉ s.dateHost) :
    date homes vars (setDateSettings s.dict) =
      ((word homes (setVars vars (dateDefaults ++ [(str "date_method", s.dateMethod)])) true 0
        (s.dateHost.filter (· ≠ 0))).map fun host ↦
          setVars (setVars vars dateDefaults) { s with dateHost := host }.assignments) := by
  have hplain := isPlain_of_isMethod hmethod
  have hint : ∀ n : Int, ∀ b ∈ showInt n, isPlain b = true := fun n b hb ↦ isPlain_of_mem_showInt hb
  have hfilter : ∀ {n v : Bytes}, n.filter (· ≠ 0) = n →
      (dateLine n v).filter (· ≠ 0) = dateLine n (v.filter (· ≠ 0)) := by
    intro n v hname
    rw [dateLine, List.filter_append, hname, List.filter_cons_of_pos (by decide)]
    rfl
  have hline : ∀ {vars : Vars} {name v : Bytes}, isVariable name = true →
      (∀ b ∈ v, isPlain b = true) →
      assignWord homes vars (dateLine name v) = some (Function.update vars name v) :=
    fun hname hv ↦ assignWord_bare hname (bare_of_isPlain hv)
  rw [date, setDateSettings_dict, sourceWords_unlines (newline_notMem_lines hmethod hhost)]
  simp only [DateSettings.assignments, List.map_cons, List.map_nil,
    hfilter (n := str "date_method") (by decide), hfilter (n := str "date_host") (by decide),
    hfilter (n := str "date_timeout") (by decide),
    hfilter (n := str "date_interval") (by decide),
    filter_nul (notMem_of_isPlain hplain (by decide)),
    filter_nul (notMem_of_isPlain (hint _) (by decide)), List.foldlM_cons, List.foldlM_nil]
  rw [hline (by decide) hplain, Option.bind_eq_bind, Option.bind_some, dateLine,
    assignWord_eq (by decide)]
  have hfirst : setVars vars (dateDefaults ++ [(str "date_method", s.dateMethod)]) =
      Function.update (setVars vars dateDefaults) (str "date_method") s.dateMethod :=
    setVars_append ..
  rw [hfirst]
  cases word homes (Function.update (setVars vars dateDefaults) (str "date_method") s.dateMethod)
      true 0 (s.dateHost.filter (· ≠ 0)) with
  | none => rfl
  | some host =>
    rw [Option.map_some, Option.bind_some, hline (by decide) (hint _), Option.bind_some,
      hline (by decide) (hint _), Option.bind_some]
    rfl

/-- Sourcing the file binds the host if and only if it is bare and has no NUL in it. -/
theorem shell_keeps_iff (hmethod : IsMethod s.dateMethod) (hhost : newline ∉ s.dateHost) :
    (∀ homes vars, date homes vars (setDateSettings s.dict) =
      some (setVars (setVars vars dateDefaults) s.assignments)) ↔
      0 ∉ s.dateHost ∧ Bare true s.dateHost := by
  constructor
  · intro h
    have hrun := h (fun _ ↦ some []) (fun _ ↦ [])
    rw [date_eq _ _ hmethod hhost] at hrun
    obtain ⟨host, hword, hvars⟩ := Option.map_eq_some_iff.mp hrun
    have hbound : host = s.dateHost := by
      have hvalue := congrFun hvars (str "date_host")
      rw [setVars_eq, setVars_eq] at hvalue
      exact hvalue
    have hunmarked : Unmarked (setVars (fun _ ↦ [])
        (dateDefaults ++ [(str "date_method", s.dateMethod)])) := by
      apply unmarked_setVars fun _ ↦ rfl
      rw [List.forall_mem_append, List.forall_mem_singleton]
      refine ⟨by decide, ?_⟩
      rcases hmethod with h | h
      · rw [h]
        decide
      · rw [h]
        decide
    have hloses := loses_of_word hunmarked hword
    rw [List.drop_zero, hbound] at hloses
    have hcount : (s.dateHost.filter (· ≠ 0)).countP isMarked ≤ s.dateHost.countP isMarked :=
      List.filter_sublist.countP_le
    obtain ⟨hbare, hsame⟩ := hloses.bare hcount
    rw [← hsame] at hbare
    refine ⟨fun hnul ↦ ?_, hbare⟩
    rw [hsame] at hnul
    simpa using List.of_mem_filter hnul
  · rintro ⟨hnul, hbare⟩ homes vars
    rw [date_eq _ _ hmethod hhost, filter_nul hnul, word_bare hbare]
    rfl

/-- The getter and the shell both read the host that was written if and only if it is plain. -/
theorem keepsHost_iff (hmethod : IsMethod s.dateMethod) (hhost : newline ∉ s.dateHost) :
    KeepsHost s ↔ PlainHost s.dateHost := by
  have hgetter := getter_keeps_iff hmethod hhost
  have hshell := shell_keeps_iff hmethod hhost
  constructor
  · rintro ⟨hget, hsource⟩
    obtain ⟨hequals, hquotes⟩ := hgetter.mp hget
    obtain ⟨hnul, hbare⟩ := hshell.mp hsource
    exact ⟨hequals, hnul, getLast?_of_stripQuotes hquotes, hbare⟩
  · intro hplain
    have hnot : ∀ {b : UInt8}, quotes b = true → b ∉ s.dateHost := by
      intro b hb hmem
      rw [hplain.bare.quotes_eq_false b hmem] at hb
      cases hb
    refine ⟨hgetter.mpr ⟨hplain.equals, ?_⟩, hshell.mpr ⟨hplain.nul, hplain.bare⟩⟩
    exact stripQuotes_eq_self hplain.last (hnot rfl) (hnot rfl)

/-- The default host. -/
theorem keepsHost_iff_google :
    KeepsHost ⟨str "http", str "google.com", 10, 900⟩ ↔ PlainHost (str "google.com") :=
  keepsHost_iff (s := ⟨str "http", str "google.com", 10, 900⟩) (.inl rfl) (by decide)

/-- A command behind the host is run. -/
theorem command_not_kept :
    str "example.com;reboot" ≠ [] ∧ newline ∉ str "example.com;reboot" ∧
      ¬ KeepsHost ⟨str "http", str "example.com;reboot", 10, 900⟩ := by
  have hhost : newline ∉ str "example.com;reboot" := by decide
  refine ⟨by decide, hhost, ?_⟩
  intro hkeeps
  have hbare := ((shell_keeps_iff (.inl rfl) hhost).mp hkeeps.shell).2
  simp [Bare, str, endsWord] at hbare

end MotionPie.Board.Common
