import MotionPie.Base.Loop
import MotionPie.Base.Text

/-!
# watch.conf

`_get_watch_settings` and `_set_watch_settings` of `package/motioneye/watchctl.py`. The setter
writes the file as a whole; that the connection is not watched is written as a comment, which the
getter reads as well.
-/

namespace MotionPie.Package.Motioneye.Watchctl

open Base

/-- The watch settings. -/
structure WatchSettings where
  watchLink : Bool
  watchLinkTimeout : Int
  watchConnect : Bool
  watchConnectHost : Bytes
  watchConnectPort : Int
  watchConnectRetries : Int
  watchConnectTimeout : Int
  watchConnectInterval : Int
  deriving DecidableEq

/-- The dictionary that `_set_watch_settings` is given: a field is `none` when the key is
missing. -/
structure WatchDict where
  watchLink : Option Bool
  watchLinkTimeout : Option Int
  watchConnect : Option Bool
  watchConnectHost : Option Bytes
  watchConnectPort : Option Int
  watchConnectRetries : Option Int
  watchConnectTimeout : Option Int
  watchConnectInterval : Option Int

/-- The calls of `s.setdefault`, `package/motioneye/watchctl.py:101-108`. -/
def WatchDict.setdefaults (s : WatchDict) : WatchSettings where
  watchLink := s.watchLink.getD false
  watchLinkTimeout := s.watchLinkTimeout.getD 20
  watchConnect := s.watchConnect.getD false
  watchConnectHost := s.watchConnectHost.getD (str "www.google.com")
  watchConnectPort := s.watchConnectPort.getD 80
  watchConnectRetries := s.watchConnectRetries.getD 3
  watchConnectTimeout := s.watchConnectTimeout.getD 5
  watchConnectInterval := s.watchConnectInterval.getD 20

/-- A dictionary with all keys. -/
def WatchSettings.dict (s : WatchSettings) : WatchDict where
  watchLink := s.watchLink
  watchLinkTimeout := s.watchLinkTimeout
  watchConnect := s.watchConnect
  watchConnectHost := s.watchConnectHost
  watchConnectPort := s.watchConnectPort
  watchConnectRetries := s.watchConnectRetries
  watchConnectTimeout := s.watchConnectTimeout
  watchConnectInterval := s.watchConnectInterval

/-! ### _set_watch_settings -/

/-- `['no', 'yes'][b]`. -/
def yesNo (b : Bool) : Bytes := if b then str "yes" else str "no"

/-- `'name=value'`. -/
def watchLine (name value : Bytes) : Bytes := name ++ 61 :: value

/-- The lines that the setter writes, `package/motioneye/watchctl.py:117-128`. -/
def WatchSettings.lines (s : WatchSettings) : List Bytes :=
  [watchLine (str "link_watch") (yesNo s.watchLink),
    watchLine (str "link_watch_timeout") (showInt s.watchLinkTimeout),
    [],
    watchLine (str "ip_watch") (yesNo s.watchLink),
    watchLine (str "ip_watch_timeout") (showInt s.watchLinkTimeout),
    [],
    (if s.watchConnect then [] else str "#") ++
      watchLine (str "netwatch_host") s.watchConnectHost,
    watchLine (str "netwatch_port") (showInt s.watchConnectPort),
    watchLine (str "netwatch_retries") (showInt s.watchConnectRetries),
    watchLine (str "netwatch_timeout") (showInt s.watchConnectTimeout),
    watchLine (str "netwatch_interval") (showInt s.watchConnectInterval)]

/-- `_set_watch_settings`, `package/motioneye/watchctl.py:100-128`: the new `watch.conf`. -/
def setWatchSettings (s : WatchDict) : Bytes := unlines s.setdefaults.lines

/-! ### _get_watch_settings -/

/-- `s.strip(b)`, for a byte. -/
def stripByte (b : UInt8) (s : Bytes) : Bytes := (s.dropWhile (· = b)).rdropWhile (· = b)

/-- The name, the value and whether they stand in a comment,
`package/motioneye/watchctl.py:46-60`. -/
def watchEntry (line : Bytes) : Option (Bytes × Bytes × Bool) :=
  let line := strip line
  if line = [] then none
  else
    let comment := decide (line.head? = some 35)
    let line := if comment then stripByte 35 line else line
    match line.splitOn 61 with
    | [name, value] => some (name, stripByte 39 (stripByte 34 value), comment)
    | _ => none

/-- What an entry sets, `package/motioneye/watchctl.py:62-82`; `none` when `int` raises an
error. -/
def readWatchEntry (s : WatchSettings) (name value : Bytes) (comment : Bool) :
    Option WatchSettings :=
  if name = str "link_watch" then some { s with watchLink := value = str "yes" && !comment }
  else if name = str "link_watch_timeout" then
    (toInt value).map fun n ↦ { s with watchLinkTimeout := n }
  else if name = str "netwatch_host" then
    some { s with watchConnect := !comment, watchConnectHost := value }
  else if name = str "netwatch_port" then
    (toInt value).map fun n ↦ { s with watchConnectPort := n }
  else if name = str "netwatch_timeout" then
    (toInt value).map fun n ↦ { s with watchConnectTimeout := n }
  else if name = str "netwatch_retries" then
    (toInt value).map fun n ↦ { s with watchConnectRetries := n }
  else if name = str "netwatch_interval" then
    (toInt value).map fun n ↦ { s with watchConnectInterval := n }
  else some s

/-- The loop body, `package/motioneye/watchctl.py:45-82`. -/
def readWatchLine (s : WatchSettings) (line : Bytes) : Option WatchSettings :=
  match watchEntry line with
  | none => some s
  | some (name, value, comment) => readWatchEntry s name value comment

/-- `_get_watch_settings`, `package/motioneye/watchctl.py:27-97`, for the content of `watch.conf`
if it exists. -/
def getWatchSettings (watchConf : Option Bytes) : Option WatchSettings :=
  (readlines (watchConf.getD [])).foldlM readWatchLine
    ⟨false, 20, false, str "www.google.com", 80, 3, 5, 20⟩

/-! ### Lines that are read -/

/-- A host: letters, digits, dots and hyphens. -/
structure IsHost (host : Bytes) : Prop where
  ne_nil : host ≠ []
  bytes : ∀ b ∈ host, isDigit b || (65 ≤ b && b ≤ 90) || (97 ≤ b && b ≤ 122) || b = 45 || b = 46

/-- A host is a plain word. -/
theorem IsHost.plain {host : Bytes} (h : IsHost host) : ∀ b ∈ host, isPlain b = true := by
  intro b hb
  have hbyte := h.bytes b hb
  simp only [isPlain, isWord, Bool.or_eq_true] at hbyte ⊢
  tauto

/-- Nothing is stripped from a text that does not have the byte. -/
theorem stripByte_of_notMem {b : UInt8} {s : Bytes} (h : b ∉ s) : stripByte b s = s := by
  have hdrop : s.dropWhile (· = b) = s := by
    cases s with
    | nil => rfl
    | cons c s =>
      rw [List.mem_cons, not_or] at h
      exact List.dropWhile_cons_of_neg (by simpa using Ne.symm h.1)
  rw [stripByte, hdrop, List.rdropWhile_eq_self_iff]
  intro hne
  have hlast : s.getLast hne ≠ b := fun heq ↦ h (heq ▸ List.getLast_mem hne)
  simpa using hlast

/-- Only the terminator is stripped from a line, in a comment or not. -/
theorem strip_comment {t : Bytes} (ht : ∀ b ∈ t, isSpace b = false) (comment : Bool) :
    strip ((if comment then str "#" else []) ++ t ++ [newline]) =
      (if comment then str "#" else []) ++ t := by
  rw [strip_append_newline]
  apply strip_of_solid
  intro b hb
  rcases List.mem_append.mp hb with hb | hb
  · have hhash : ∀ b ∈ (if comment then str "#" else []), isSpace b = false := by
      cases comment <;> decide
    exact hhash b hb
  · exact ht b hb

/-- A comment is told by its first byte. -/
theorem head?_comment {t : Bytes} (ht : 35 ∉ t) (comment : Bool) :
    ((if comment then str "#" else []) ++ t).head? = some 35 ↔ comment = true := by
  cases comment with
  | false => simpa using fun hhead ↦ ht (List.mem_of_head? hhead)
  | true => simp [str]

/-- The text of a comment. -/
theorem stripByte_comment {t : Bytes} (ht : 35 ∉ t) : stripByte 35 (str "#" ++ t) = t := by
  calc stripByte 35 (str "#" ++ t)
    _ = stripByte 35 t := by simp [stripByte, str]
    _ = t := stripByte_of_notMem ht

variable {name value : Bytes}

/-- A line splits at its equals sign. -/
theorem splitOn_watchLine (hname : ∀ b ∈ name, isPlain b = true)
    (hvalue : ∀ b ∈ value, isPlain b = true) :
    (watchLine name value).splitOn 61 = [name, value] := by
  rw [watchLine, List.splitOn_append_cons_self_of_not_mem (notMem_of_isPlain hname (by decide)),
    List.splitOn_eq_singleton (notMem_of_isPlain hvalue (by decide))]

/-- The entry of a line with a plain name and a plain value, in a comment or not. -/
theorem watchEntry_watchLine (hname : ∀ b ∈ name, isPlain b = true)
    (hvalue : ∀ b ∈ value, isPlain b = true) (comment : Bool) :
    watchEntry ((if comment then str "#" else []) ++ watchLine name value ++ [newline]) =
      some (name, value, comment) := by
  have hbytes : ∀ b ∈ watchLine name value, isSpace b = false ∧ b ≠ 35 := by
    intro b hb
    rcases List.mem_append.mp hb with hb | hb
    · exact ⟨isSpace_of_isPlain (hname b hb),
        fun h ↦ notMem_of_isPlain hname (by decide) (h ▸ hb)⟩
    · rcases List.mem_cons.mp hb with rfl | hb
      · exact ⟨rfl, by decide⟩
      · exact ⟨isSpace_of_isPlain (hvalue b hb),
          fun h ↦ notMem_of_isPlain hvalue (by decide) (h ▸ hb)⟩
  have hhash : 35 ∉ watchLine name value := fun hmem ↦ (hbytes 35 hmem).2 rfl
  have hquotes : stripByte 39 (stripByte 34 value) = value := by
    rw [stripByte_of_notMem (notMem_of_isPlain hvalue (by decide)),
      stripByte_of_notMem (notMem_of_isPlain hvalue (by decide))]
  have hnil : (if comment then str "#" else []) ++ watchLine name value ≠ [] := by
    simp [watchLine]
  rw [watchEntry, strip_comment (fun b hb ↦ (hbytes b hb).1) comment]
  simp only [hnil, if_false, head?_comment hhash comment]
  cases comment with
  | false => simp [splitOn_watchLine hname hvalue, hquotes]
  | true => simp [stripByte_comment hhash, splitOn_watchLine hname hvalue, hquotes]

/-- A line with a plain name and a plain value sets what the name says. -/
theorem readWatchLine_watchLine (hname : ∀ b ∈ name, isPlain b = true)
    (hvalue : ∀ b ∈ value, isPlain b = true) (s : WatchSettings) (comment : Bool) :
    readWatchLine s ((if comment then str "#" else []) ++ watchLine name value ++ [newline]) =
      readWatchEntry s name value comment := by
  rw [readWatchLine, watchEntry_watchLine hname hvalue]

/-- A line that sets a number. -/
theorem readWatchLine_showInt (hname : ∀ b ∈ name, isPlain b = true) (s : WatchSettings) (n : Int) :
    readWatchLine s (watchLine name (showInt n) ++ [newline]) =
      readWatchEntry s name (showInt n) false :=
  readWatchLine_watchLine hname (fun _ ↦ isPlain_of_mem_showInt) s false

/-- A line that sets a flag. -/
theorem readWatchLine_yesNo (hname : ∀ b ∈ name, isPlain b = true) (s : WatchSettings) (b : Bool) :
    readWatchLine s (watchLine name (yesNo b) ++ [newline]) =
      readWatchEntry s name (yesNo b) false := by
  apply readWatchLine_watchLine hname _ s false
  cases b <;> decide

/-! ### The round trip -/

/-- A line with a plain name and a plain value has no terminator and no NUL. -/
theorem clear_watchLine (hname : ∀ b ∈ name, isPlain b = true)
    (hvalue : ∀ b ∈ value, isPlain b = true) :
    newline ∉ watchLine name value ∧ 0 ∉ watchLine name value := by
  have hclear : ∀ b, isPlain b = false → b ≠ 61 → b ∉ watchLine name value := by
    intro b hb hequals hmem
    rcases List.mem_append.mp hmem with hmem | hmem
    · exact notMem_of_isPlain hname hb hmem
    · rcases List.mem_cons.mp hmem with heq | hmem
      · exact hequals heq
      · exact notMem_of_isPlain hvalue hb hmem
  exact ⟨hclear newline (by decide) (by decide), hclear 0 (by decide) (by decide)⟩

/-- A flag is a plain word. -/
theorem isPlain_of_mem_yesNo {b : Bool} : ∀ c ∈ yesNo b, isPlain c = true := by
  cases b <;> decide

/-- The lines that are written have no terminators and no NULs of their own. -/
theorem clear_lines {s : WatchSettings} (hhost : IsHost s.watchConnectHost) :
    ∀ l ∈ s.lines, newline ∉ l ∧ 0 ∉ l := by
  have hblank : newline ∉ ([] : Bytes) ∧ 0 ∉ ([] : Bytes) := by simp
  have hnumber : ∀ {name : Bytes} (n : Int), (∀ b ∈ name, isPlain b = true) →
      newline ∉ watchLine name (showInt n) ∧ 0 ∉ watchLine name (showInt n) :=
    fun n hname ↦ clear_watchLine hname fun _ ↦ isPlain_of_mem_showInt
  have hflag : ∀ {name : Bytes} (b : Bool), (∀ c ∈ name, isPlain c = true) →
      newline ∉ watchLine name (yesNo b) ∧ 0 ∉ watchLine name (yesNo b) :=
    fun b hname ↦ clear_watchLine hname isPlain_of_mem_yesNo
  have hhostLine : newline ∉ (if s.watchConnect then [] else str "#") ++
        watchLine (str "netwatch_host") s.watchConnectHost ∧
      0 ∉ (if s.watchConnect then [] else str "#") ++
        watchLine (str "netwatch_host") s.watchConnectHost := by
    obtain ⟨hnewline, hnul⟩ := clear_watchLine (by decide : ∀ b ∈ str "netwatch_host", _)
      hhost.plain
    cases s.watchConnect with
    | true => exact ⟨hnewline, hnul⟩
    | false => exact ⟨by simpa [str, newline] using hnewline, by simpa [str] using hnul⟩
  intro l hl
  simp only [WatchSettings.lines, List.mem_cons, List.not_mem_nil, or_false] at hl
  rcases hl with rfl | rfl | rfl | rfl | rfl | rfl | rfl | rfl | rfl | rfl | rfl
  · exact hflag _ (by decide)
  · exact hnumber _ (by decide)
  · exact hblank
  · exact hflag _ (by decide)
  · exact hnumber _ (by decide)
  · exact hblank
  · exact hhostLine
  · exact hnumber _ (by decide)
  · exact hnumber _ (by decide)
  · exact hnumber _ (by decide)
  · exact hnumber _ (by decide)

/-- A dictionary with all keys is left as it is. -/
theorem setdefaults_dict (s : WatchSettings) : s.dict.setdefaults = s := rfl

/-- What the setter writes is read back. -/
theorem getWatchSettings_set {d : WatchDict} (hhost : IsHost d.setdefaults.watchConnectHost) :
    getWatchSettings (some (setWatchSettings d)) = some d.setdefaults := by
  rw [getWatchSettings, setWatchSettings]
  generalize d.setdefaults = s at hhost
  have hblank : ∀ t, readWatchLine t ([] ++ [newline]) = some t := fun t ↦ rfl
  have hhostLine : ∀ t, readWatchLine t ((if s.watchConnect then [] else str "#") ++
      watchLine (str "netwatch_host") s.watchConnectHost ++ [newline]) =
        some { t with watchConnect := s.watchConnect, watchConnectHost := s.watchConnectHost } := by
    intro t
    have hline := readWatchLine_watchLine (by decide : ∀ b ∈ str "netwatch_host", _) hhost.plain t
      (!s.watchConnect)
    cases hconnect : s.watchConnect with
    | true =>
      rw [hconnect] at hline
      exact hline
    | false =>
      rw [hconnect] at hline
      exact hline
  have hflag : ∀ b : Bool, decide (yesNo b = str "yes") = b := by decide
  rw [Option.getD_some, readlines_unlines fun l hl ↦ (clear_lines hhost l hl).1]
  simp only [WatchSettings.lines, List.map_cons, List.map_nil, List.foldlM_cons, List.foldlM_nil,
    hblank, hhostLine]
  simp +decide only [readWatchLine_yesNo, readWatchLine_showInt, readWatchEntry, hflag,
    toInt_showInt, if_true, if_false, Option.map_some, Option.bind_eq_bind, Option.bind_some,
    Bool.not_false, Bool.and_true]
  rfl

end MotionPie.Package.Motioneye.Watchctl
