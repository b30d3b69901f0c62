import MotionPie.Package.Motioneye.Watchctl

/-!
# date.conf

`_get_date_settings` and `_set_date_settings` of `package/motioneye/extractl.py`. The setter writes
every value as it is. The getter passes over a line with more than one equals sign, and strips
white space at the end of the line and quotes around the value.
-/

namespace MotionPie.Package.Motioneye.Dates

open Base Watchctl

/-- The date settings. -/
structure DateSettings where
  dateMethod : Bytes
  dateHost : Bytes
  dateTimeout : Int
  dateInterval : Int
  deriving DecidableEq

/-- The dictionary that `_set_date_settings` is given: a field is `none` when the key is missing. -/
structure DateDict where
  dateMethod : Option Bytes
  dateHost : Option Bytes
  dateTimeout : Option Int
  dateInterval : Option Int

/-- The exceptions. -/
inductive Error
  | valueError
  deriving DecidableEq

/-! ### _set_date_settings -/

/-- The calls of `s.setdefault`, `package/motioneye/extractl.py:83-86`. -/
def DateDict.setdefaults (s : DateDict) : DateSettings where
  dateMethod := s.dateMethod.getD (str "http")
  dateHost := s.dateHost.getD (str "google.com")
  dateTimeout := s.dateTimeout.getD 10
  dateInterval := s.dateInterval.getD 900

/-- A dictionary with all keys. -/
def DateSettings.dict (s : DateSettings) : DateDict where
  dateMethod := s.dateMethod
  dateHost := s.dateHost
  dateTimeout := s.dateTimeout
  dateInterval := s.dateInterval

/-- The names and the values that the setter writes. -/
def DateSettings.assignments (s : DateSettings) : List (Bytes × Bytes) :=
  [(str "date_method", s.dateMethod), (str "date_host", s.dateHost),
    (str "date_timeout", showInt s.dateTimeout), (str "date_interval", showInt s.dateInterval)]

/-- `'name=%s'`. -/
def dateLine (name value : Bytes) : Bytes := name ++ 61 :: value

/-- `_set_date_settings`, `package/motioneye/extractl.py:82-95`: the new `date.conf`. -/
def setDateSettings (s : DateDict) : Bytes :=
  unlines (s.setdefaults.assignments.map fun a ↦ dateLine a.1 a.2)

/-! ### _get_date_settings -/

/-- `value.strip('"').strip("'")`. -/
def stripQuotes (value : Bytes) : Bytes := stripByte 39 (stripByte 34 value)

/-- The name and the value in a line with exactly one equals sign. -/
def assignment (line : Bytes) : Option (Bytes × Bytes) :=
  match split 61 line.length line with
  | [name, value] => some (name, stripQuotes value)
  | _ => none

/-- The effect of a name and a value, `package/motioneye/extractl.py:58-68`. -/
def readValue (s : DateSettings) (name value : Bytes) : Except Error DateSettings :=
  if name = str "date_method" then .ok { s with dateMethod := value }
  else if name = str "date_host" then .ok { s with dateHost := value }
  else if name = str "date_timeout" then
    match toInt value with
    | some n => .ok { s with dateTimeout := n }
    | none => .error .valueError
  else if name = str "date_interval" then
    match toInt value with
    | some n => .ok { s with dateInterval := n }
    | none => .error .valueError
  else .ok s

/-- The loop body, `package/motioneye/extractl.py:38-68`. A comment is passed over. -/
def readLine (s : DateSettings) (line : Bytes) : Except Error DateSettings :=
  let line := strip line
  if line = [] ∨ line.head? = some 35 then .ok s
  else match assignment line with
    | some (name, value) => readValue s name value
    | none => .ok s

/-- `_get_date_settings`, `package/motioneye/extractl.py:28-79`, for `date.conf` if it exists. -/
def getDateSettings (conf : Option Bytes) : Except Error DateSettings :=
  (readlines (conf.getD [])).foldlM readLine ⟨str "http", str "google.com", 10, 900⟩

/-! ### Lines that have been written -/

variable {s : DateSettings} {name value : Bytes}

/-- A name at the start of a line. -/
structure IsName (name : Bytes) : Prop where
  ne_nil : name ≠ []
  head : ∀ b ∈ name.head?, isSpace b = false ∧ b ≠ 35
  equals : 61 ∉ name

/-- A number is read back. -/
theorem readValue_dateTimeout (s : DateSettings) (n : Int) :
    readValue s (str "date_timeout") (showInt n) = .ok { s with dateTimeout := n } := by
  rw [readValue, if_neg (by decide), if_neg (by decide), if_pos rfl, toInt_showInt]

theorem readValue_dateInterval (s : DateSettings) (n : Int) :
    readValue s (str "date_interval") (showInt n) = .ok { s with dateInterval := n } := by
  rw [readValue, if_neg (by decide), if_neg (by decide), if_neg (by decide), if_pos rfl,
    toInt_showInt]

/-- White space at the end of a line is not part of the value. -/
theorem strip_dateLine (hname : IsName name) (value : Bytes) :
    strip (dateLine name value ++ [newline]) = dateLine name (value.rdropWhile isSpace) := by
  have hdrop : (dateLine name value).dropWhile isSpace = dateLine name value := by
    cases name with
    | nil => exact absurd rfl hname.ne_nil
    | cons b name =>
      rw [dateLine, List.cons_append]
      exact List.dropWhile_cons_of_neg (by simp [(hname.head b rfl).1])
  rw [strip_append_newline, strip, hdrop, dateLine, rdropWhile_append_cons (by decide), dateLine]

/-- A line with one equals sign gives its value to its name. -/
theorem assignment_dateLine (hname : IsName name) (hvalue : 61 ∉ value) :
    assignment (dateLine name value) = some (name, stripQuotes value) := by
  have hlength : (dateLine name value).length = name.length + value.length + 1 := by
    simp [dateLine, Nat.add_assoc]
  rw [assignment, hlength, dateLine, split_append hname.equals, split_of_notMem hvalue]

/-- A line with a second equals sign does not. -/
theorem assignment_of_mem (hname : IsName name) (hvalue : 61 ∈ value) :
    assignment (dateLine name value) = none := by
  obtain ⟨u, t, rfl, hu⟩ := List.eq_append_cons_of_mem hvalue
  have hlength : (dateLine name (u ++ 61 :: t)).length =
      name.length + u.length + t.length + 1 + 1 := by
    simp [dateLine, Nat.add_assoc, Nat.add_comm, Nat.add_left_comm]
  rw [assignment, hlength, dateLine, split_append hname.equals, split_append hu]
  have hparts : split 61 (name.length + u.length + t.length) t ≠ [] := by
    cases name.length + u.length + t.length with
    | zero => simp [split]
    | succ n =>
      rw [split]
      split <;> simp
  obtain ⟨v, vs, hvs⟩ := List.exists_cons_of_ne_nil hparts
  rw [hvs]

/-- What the getter does with a line that has been written. -/
theorem readLine_dateLine (hname : IsName name) (value : Bytes) :
    readLine s (dateLine name value ++ [newline]) =
      if 61 ∈ value then .ok s
      else readValue s name (stripQuotes (value.rdropWhile isSpace)) := by
  have hline : ¬ (dateLine name (value.rdropWhile isSpace) = [] ∨
      (dateLine name (value.rdropWhile isSpace)).head? = some 35) := by
    cases name with
    | nil => exact absurd rfl hname.ne_nil
    | cons b name => simpa [dateLine] using (hname.head b rfl).2
  have hmem : 61 ∈ value.rdropWhile isSpace ↔ 61 ∈ value := by
    refine ⟨fun h ↦ (List.rdropWhile_prefix isSpace _).subset h, fun h ↦ ?_⟩
    obtain ⟨u, t, rfl, -⟩ := List.eq_append_cons_of_mem h
    rw [rdropWhile_append_cons (by decide)]
    exact List.mem_append_right _ List.mem_cons_self
  rw [readLine, strip_dateLine hname]
  simp only [if_neg hline]
  by_cases hequals : 61 ∈ value
  · rw [assignment_of_mem hname (hmem.mpr hequals), if_pos hequals]
  · rw [assignment_dateLine hname (mt hmem.mp hequals), if_neg hequals]

end MotionPie.Package.Motioneye.Dates
