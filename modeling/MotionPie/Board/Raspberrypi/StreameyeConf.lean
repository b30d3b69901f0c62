import MotionPie.Base.Scan
import MotionPie.Base.Text

/-!
# streameye.conf

`_get_streameye_settings` and `_set_streameye_settings` of
`board/raspberrypi/motioneye-modules/streameyectl.py`. The getter searches each line for a port
first and for a mode only where it found none, and the searches are not anchored, so it may find
either in the credentials.
-/

namespace MotionPie.Board.Raspberrypi

open Base

/-- The choices for `seAuthMode`. -/
inductive AuthMode
  | disabled
  | basic
  deriving DecidableEq

/-- The mode as it is written. -/
def AuthMode.name : AuthMode → Bytes
  | .disabled => str "disabled"
  | .basic => str "basic"

/-- The entries of `config.get_main()` that the setter reads. -/
structure MainConfig where
  normalUsername : Bytes
  normalPassword : Bytes

/-- The dictionary that `_set_streameye_settings` works on: a field is `none` when the key is
missing. -/
structure StreameyeDict where
  sePort : Option Int
  seAuthMode : Option AuthMode

/-- The result of `_get_streameye_settings`. -/
structure StreameyeSettings where
  seAuthMode : Bytes
  sePort : Int
  deriving DecidableEq

/-- What the setter writes to: `/data/etc/streameye.conf`, the lines of camera 1, and its `@url`
in the cache of the configuration. -/
structure StreameyeFiles where
  streameyeConf : Option Bytes
  camera : List Bytes
  cachedUrl : Option Bytes

/-! ### _set_streameye_settings -/

/-- `'PORT="%s"' % s['sePort']`. -/
def portLine (port : Int) : Bytes := str "PORT=\"" ++ showInt port ++ str "\""

/-- `'AUTH="%s"' % s['seAuthMode']`. -/
def authLine (mode : AuthMode) : Bytes := str "AUTH=\"" ++ mode.name ++ str "\""

/-- `'%s:%s:%s' % (username, password, realm)`. -/
def credentials (main : MainConfig) : Bytes :=
  main.normalUsername ++ str ":" ++ main.normalPassword ++ str ":motionPie"

/-- `'CREDENTIALS="%s:%s:%s"' % (username, password, realm)`. -/
def credentialsLine (main : MainConfig) : Bytes :=
  str "CREDENTIALS=\"" ++ credentials main ++ str "\""

/-- The address of the stream. -/
def streamUrl (main : MainConfig) (mode : AuthMode) (port : Int) : Bytes :=
  match mode with
  | .basic => str "http://" ++ main.normalUsername ++ str ":" ++ main.normalPassword ++
      str "@127.0.0.1:" ++ showInt port ++ str "/"
  | .disabled => str "http://127.0.0.1:" ++ showInt port ++ str "/"

/-- `_set_streameye_settings`,
`board/raspberrypi/motioneye-modules/streameyectl.py:402-451`. -/
def setStreameyeSettings (main : MainConfig) (s : StreameyeDict) (fs : StreameyeFiles) :
    StreameyeFiles :=
  let port := s.sePort.getD 8081
  let mode := s.seAuthMode.getD .disabled
  let url := streamUrl main mode port
  { streameyeConf := some (unlines [portLine port, authLine mode, credentialsLine main])
    camera := fs.camera.map fun line ↦
      if (str "# @url").isPrefixOf line then str "# @url " ++ url else line
    cachedUrl := fs.cachedUrl.map fun _ ↦ url }

/-! ### _get_streameye_settings -/

/-- `NAME="?(p+)"?`, with the text of the group. -/
def setting (name : Bytes) (p : UInt8 → Bool) : Pattern UInt8 Bytes := fun s ↦
  let quote (t : Bytes) : Nat := if t.head? = some 34 then 1 else 0
  let start := name.length + quote (s.drop name.length)
  let group := (s.drop start).takeWhile p
  let stop := start + group.length
  if name.isPrefixOf s && !group.isEmpty then some (group, stop + quote (s.drop stop)) else none

/-- `PORT="?(\d+)"?`. -/
def portPattern : Pattern UInt8 Bytes := setting (str "PORT=") isDigit

/-- `AUTH="?(\w+)"?`. -/
def authPattern : Pattern UInt8 Bytes := setting (str "AUTH=") isWord

/-- `int(m[0])`, for digits. -/
def portNumber (digits : Bytes) : Int := (toInt digits).getD 0

/-- The loop body, `streameyectl.py:385-397`. -/
def readSetting (s : StreameyeSettings) (line : Bytes) : StreameyeSettings :=
  let line := strip line
  if line = [] then s
  else match scan portPattern line with
    | port :: _ => { s with sePort := portNumber port }
    | [] =>
      match scan authPattern line with
      | mode :: _ => { s with seAuthMode := mode }
      | [] => s

/-- `_get_streameye_settings`,
`board/raspberrypi/motioneye-modules/streameyectl.py:375-399`. -/
def getStreameyeSettings (fs : StreameyeFiles) : StreameyeSettings :=
  (readlines (fs.streameyeConf.getD [])).foldl readSetting ⟨str "disabled", 8081⟩

/-! ### Lines that are read -/

/-- The first port in a line. -/
def firstPort (line : Bytes) : Option Bytes := (matchesAt portPattern line).head?

/-- The first mode in a line. -/
def firstAuth (line : Bytes) : Option Bytes := (matchesAt authPattern line).head?

/-- A line is searched for the first port, and then for the first mode. -/
theorem readSetting_eq {line : Bytes} (hne : line ≠ []) (hstrip : strip line = line)
    (s : StreameyeSettings) :
    readSetting s (line ++ [newline]) =
      match firstPort line, firstAuth line with
      | some port, _ => { s with sePort := portNumber port }
      | none, some mode => { s with seAuthMode := mode }
      | none, none => s := by
  have hport : (scan portPattern line).head? = firstPort line := head?_scan rfl line
  have hauth : (scan authPattern line).head? = firstAuth line := head?_scan rfl line
  rw [readSetting, strip_append_newline, hstrip, if_neg hne, ← hport, ← hauth]
  cases scan portPattern line <;> cases scan authPattern line <;> rfl

/-- Where the first byte of the name is missing, nothing is found. -/
theorem matchesAt_setting {a : UInt8} {name s : Bytes} {p : UInt8 → Bool} (h : a ∉ s) :
    matchesAt (setting (a :: name) p) s = [] := by
  induction s with
  | nil => rfl
  | cons b s ih =>
    rw [List.mem_cons, not_or] at h
    have hnone : setting (a :: name) p (b :: s) = none := by
      simp [setting, List.isPrefixOf, h.1]
    rw [matchesAt_cons_of_none hnone, ih h.2]

/-- A line that ends in a quote is stripped already. -/
theorem strip_quoted {a : UInt8} (ha : isSpace a = false) (s : Bytes) :
    strip (a :: s ++ str "\"") = a :: s ++ str "\"" := by
  apply strip_eq_self
  · intro b hb
    obtain rfl : a = b := by simpa using hb
    exact ha
  · intro b hb
    rw [show str "\"" = [34] from rfl, List.getLast?_concat] at hb
    obtain rfl : 34 = b := by simpa using hb
    rfl

/-- A quoted value is found. -/
theorem setting_quoted (name : Bytes) (p : UInt8 → Bool) {v : Bytes} (hne : v ≠ [])
    (hv : ∀ b ∈ v, p b = true) (hquote : p 34 = false) :
    ∃ k, setting name p (name ++ 34 :: (v ++ [34])) = some (v, k) := by
  have hgroup : (v ++ [34]).takeWhile p = v := by
    rw [List.takeWhile_append_of_pos hv, List.takeWhile_cons_of_neg (by simp [hquote]),
      List.append_nil]
  have hdrop : (name ++ 34 :: (v ++ [34])).drop (name.length + 1) = v ++ [34] := by
    rw [← List.drop_drop, List.drop_left]
    rfl
  simp [setting, hgroup, hdrop, hne]

/-- What stands in the line of the port. -/
theorem mem_portLine {port : Int} {b : UInt8} (hb : b ∈ portLine port) :
    b ∈ str "PORT=\"" ∨ isDigit b = true ∨ b = 45 := by
  simp only [portLine, List.mem_append] at hb
  rcases hb with (hb | hb) | hb
  · exact .inl hb
  · exact .inr (mem_showInt hb)
  · obtain rfl : b = 34 := List.mem_singleton.mp hb
    exact .inl (by decide)

/-- The port in its line, if it has no sign. -/
theorem firstPort_portLine (port : Int) :
    firstPort (portLine port) = if 0 ≤ port then some (showInt port) else none := by
  have hline : portLine port = str "PORT=" ++ 34 :: (showInt port ++ [34]) := by
    simp [portLine, str]
  have hhead : portLine port = 80 :: (portLine port).tail := rfl
  rw [firstPort]
  cases port with
  | ofNat n =>
    obtain ⟨k, hk⟩ := setting_quoted (str "PORT=") isDigit (showNat_ne_nil n)
      (fun b hb ↦ isDigit_of_mem_showNat hb) (by decide)
    have hat : portPattern (portLine (.ofNat n)) = some (showNat n, k) := by
      rw [hline]
      exact hk
    rw [hhead] at hat ⊢
    rw [if_pos (by simp), matchesAt_cons_of_some hat]
    rfl
  | negSucc n =>
    have hnone : portPattern (portLine (.negSucc n)) = none := rfl
    have hrest : (80 : UInt8) ∉ (portLine (.negSucc n)).tail := by
      intro hmem
      have hmem : (80 : UInt8) ∈ str "ORT=\"" ++ showInt (.negSucc n) ++ str "\"" := hmem
      simp only [List.mem_append] at hmem
      rcases hmem with (hmem | hmem) | hmem
      · exact absurd hmem (by decide)
      · exact absurd (mem_showInt hmem) (by decide)
      · exact absurd hmem (by decide)
    rw [hhead] at hnone ⊢
    rw [if_neg (by simp), matchesAt_cons_of_none hnone]
    exact congrArg List.head? (matchesAt_setting hrest)

/-- No mode stands in the line of the port. -/
theorem firstAuth_portLine (port : Int) : firstAuth (portLine port) = none := by
  have hnot : (65 : UInt8) ∉ portLine port := fun hmem ↦ absurd (mem_portLine hmem) (by decide)
  exact congrArg List.head? (matchesAt_setting hnot)

/-- Only the mode stands in its line. -/
theorem first_authLine (mode : AuthMode) :
    firstPort (authLine mode) = none ∧ firstAuth (authLine mode) = some mode.name := by
  cases mode <;> decide

/-! ### The round trip -/

/-- The credentials have no terminator when neither of them has one. -/
theorem newline_notMem_credentialsLine {main : MainConfig} (huser : newline ∉ main.normalUsername)
    (hpassword : newline ∉ main.normalPassword) : newline ∉ credentialsLine main := by
  simp only [credentialsLine, credentials, List.mem_append, not_or]
  exact ⟨⟨by decide, ⟨⟨huser, by decide⟩, hpassword⟩, by decide⟩, by decide⟩

/-- A port that is found has no sign. -/
theorem portNumber_nonneg {line v : Bytes} (h : firstPort line = some v) : 0 ≤ portNumber v := by
  obtain ⟨s, -, hs⟩ := List.mem_filterMap.mp (List.mem_of_head? h)
  obtain ⟨⟨u, k⟩, hu, rfl⟩ := Option.map_eq_some_iff.mp hs
  have hdigit : ∀ b ∈ u, isDigit b = true := by
    simp only [portPattern, setting, Option.ite_none_right_eq_some, Option.some.injEq,
      Prod.mk.injEq] at hu
    obtain ⟨-, rfl, -⟩ := hu
    exact fun b hb ↦ List.mem_takeWhile_imp hb
  have hstrip : strip u = u := strip_of_solid fun b hb ↦ isSpace_of_isDigit (hdigit b hb)
  rw [portNumber, toInt, hstrip]
  split
  · exact absurd (hdigit 45 List.mem_cons_self) (by decide)
  · exact absurd (hdigit 43 List.mem_cons_self) (by decide)
  · cases parseDigits u <;> simp

/-- The getter, by what it finds in the credentials. -/
theorem getStreameyeSettings_set {main : MainConfig} (huser : newline ∉ main.normalUsername)
    (hpassword : newline ∉ main.normalPassword) (port : Int) (mode : AuthMode)
    (fs : StreameyeFiles) :
    getStreameyeSettings (setStreameyeSettings main ⟨some port, some mode⟩ fs) =
      match firstPort (credentialsLine main), firstAuth (credentialsLine main) with
      | some v, _ => ⟨mode.name, portNumber v⟩
      | none, some v => ⟨v, if 0 ≤ port then port else 8081⟩
      | none, none => ⟨mode.name, if 0 ≤ port then port else 8081⟩ := by
  have hlines : ∀ l ∈ [portLine port, authLine mode, credentialsLine main], newline ∉ l := by
    simp only [List.forall_mem_cons, List.not_mem_nil, false_implies, implies_true, and_true]
    refine ⟨fun hmem ↦ absurd (mem_portLine hmem) (by decide), ?_,
      newline_notMem_credentialsLine huser hpassword⟩
    cases mode <;> decide
  have hport : ∀ s, readSetting s (portLine port ++ [newline]) =
      { s with sePort := if 0 ≤ port then port else s.sePort } := by
    intro s
    have hstrip : strip (portLine port) = portLine port := strip_quoted (by decide) _
    rw [readSetting_eq (by simp [portLine, str]) hstrip, firstPort_portLine, firstAuth_portLine]
    by_cases hsign : 0 ≤ port
    · simp [hsign, portNumber, toInt_showInt]
    · simp [hsign]
  have hauth : ∀ s, readSetting s (authLine mode ++ [newline]) =
      { s with seAuthMode := mode.name } := by
    intro s
    have hstrip : strip (authLine mode) = authLine mode := strip_quoted (by decide) _
    obtain ⟨hnone, hsome⟩ := first_authLine mode
    rw [readSetting_eq (by simp [authLine, str]) hstrip, hnone, hsome]
  have hcredentials : strip (credentialsLine main) = credentialsLine main :=
    strip_quoted (by decide) _
  change (readlines (unlines [portLine port, authLine mode, credentialsLine main])).foldl _ _ = _
  rw [readlines_unlines hlines]
  simp only [List.map_cons, List.map_nil, List.foldl_cons, List.foldl_nil, hport, hauth]
  rw [readSetting_eq (by simp [credentialsLine, str]) hcredentials]

/-- Nothing that the getter reads as another port or mode stands in the credentials. -/
structure Unmistaken (main : MainConfig) (port : Int) (mode : AuthMode) : Prop where
  sign : 0 ≤ port
  port : ∀ v, firstPort (credentialsLine main) = some v → portNumber v = port
  mode : firstPort (credentialsLine main) = none →
    ∀ v, firstAuth (credentialsLine main) = some v → v = mode.name

/-- The port and the mode are read back if and only if they are not mistaken. -/
theorem settings_kept_iff {main : MainConfig} (huser : newline ∉ main.normalUsername)
    (hpassword : newline ∉ main.normalPassword) (port : Int) (mode : AuthMode)
    (fs : StreameyeFiles) :
    getStreameyeSettings (setStreameyeSettings main ⟨some port, some mode⟩ fs) =
        ⟨mode.name, port⟩ ↔ Unmistaken main port mode := by
  rw [getStreameyeSettings_set huser hpassword]
  have hsign : (if 0 ≤ port then port else 8081) = port ↔ 0 ≤ port := by
    split <;> omega
  cases hport : firstPort (credentialsLine main) with
  | some v =>
    simp only [StreameyeSettings.mk.injEq, true_and]
    constructor
    · rintro rfl
      refine ⟨portNumber_nonneg hport, fun w hw ↦ ?_, fun hnone ↦ ?_⟩
      · rw [Option.some.inj (hport.symm.trans hw)]
      · rw [hport] at hnone
        cases hnone
    · exact fun h ↦ h.port v hport
  | none =>
    have hfound : ∀ w, firstPort (credentialsLine main) ≠ some w := by simp [hport]
    cases hauth : firstAuth (credentialsLine main) with
    | some v =>
      simp only [StreameyeSettings.mk.injEq, hsign]
      constructor
      · rintro ⟨rfl, hport⟩
        refine ⟨hport, fun w hw ↦ absurd hw (hfound w), fun _ w hw ↦ ?_⟩
        exact Option.some.inj (hw.symm.trans hauth)
      · exact fun h ↦ ⟨h.mode hport v hauth, h.sign⟩
    | none =>
      simp only [StreameyeSettings.mk.injEq, true_and, hsign]
      constructor
      · intro hport
        refine ⟨hport, fun w hw ↦ absurd hw (hfound w), fun _ w hw ↦ ?_⟩
        rw [hauth] at hw
        cases hw
      · exact fun h ↦ h.sign

/-- Plain credentials. -/
theorem settings_kept_iff_plain :
    getStreameyeSettings (setStreameyeSettings ⟨str "user", str "secret"⟩ ⟨some 8081, some .basic⟩
        ⟨none, [], none⟩) = ⟨AuthMode.name .basic, 8081⟩ ↔
      Unmistaken ⟨str "user", str "secret"⟩ 8081 .basic :=
  settings_kept_iff (by decide) (by decide) 8081 .basic ⟨none, [], none⟩

/-- A password that looks like a port. -/
theorem settings_mistaken :
    getStreameyeSettings (setStreameyeSettings ⟨str "user", str "PORT=1"⟩ ⟨some 8081, some .basic⟩
        ⟨none, [], none⟩) = ⟨AuthMode.name .basic, 1⟩ ∧
      getStreameyeSettings (setStreameyeSettings ⟨str "user", str "PORT=1"⟩
        ⟨some 8081, some .basic⟩ ⟨none, [], none⟩) ≠ ⟨AuthMode.name .basic, 8081⟩ := by
  decide

end MotionPie.Board.Raspberrypi
