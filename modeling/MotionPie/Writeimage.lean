import MotionPie.Base.Loop
import MotionPie.Shell.Source

/-!
# The wireless network of `writeimage.sh`

`writeimage.sh` takes the name and the key of a wireless network from one option and writes them to
`wpa_supplicant.conf` on the card. The option is taken apart by an unquoted expansion, so its
parts go through pathname expansion as well. Which words are patterns and which file names match
them are parameters.
-/

namespace MotionPie.Writeimage

open Base Shell

/-- The letter of an option. Every letter that is not listed asks for the usage. -/
inductive Letter
  | d
  | i
  | n
  | s
  | other
  deriving DecidableEq

/-- Why the script stops before it writes the card. -/
inductive Failure
  | usage
  deriving DecidableEq

/-- The variables that the options set. -/
structure Settings where
  sdcardDev : Bytes
  diskImg : Bytes
  ssid : Bytes
  psk : Bytes
  ip : Bytes
  gw : Bytes
  dns : Bytes
  deriving DecidableEq

/-- No variable is set. -/
def Settings.unset : Settings := ⟨[], [], [], [], [], [], []⟩

/-- The fields of an expansion under `IFS=d`, for a separator `d` that is no white space. A
separator at the end ends the last field. -/
def splitFields (d : UInt8) (s : Bytes) : List Bytes :=
  let fields := s.splitOn d
  if fields.getLast? = some [] then fields.dropLast else fields

variable (g : Globbing) (names : Bytes → List Bytes)

/-- `IFS=":" A=($OPTARG)`. -/
def fields (optarg : Bytes) : List Bytes := (splitFields 58 optarg).flatMap (expand g names)

/-- `${A[k]}`. -/
def element (a : List Bytes) (k : Nat) : Bytes := (a[k]?).getD []

/-- An option, `writeimage.sh:26-48`. -/
def takeOption (st : Settings) (o : Letter × Bytes) : Except Failure Settings :=
  match o.1 with
  | .d => .ok { st with sdcardDev := o.2 }
  | .i => .ok { st with diskImg := o.2 }
  | .n =>
    let network := fields g names o.2
    .ok { st with ssid := element network 0, psk := element network 1 }
  | .s =>
    let sIp := fields g names o.2
    .ok { st with ip := element sIp 0, gw := element sIp 1, dns := element sIp 2 }
  | .other => .error .usage

/-- The options, `writeimage.sh:26-52`, for the values of the variables in the environment. -/
def takeOptions (st : Settings) (opts : List (Letter × Bytes)) : Except Failure Settings := do
  let st ← opts.foldlM (takeOption g names) st
  if st.sdcardDev = [] ∨ st.diskImg = [] then .error .usage else .ok st

variable {g names}

/-- The line of a quoted setting. -/
def settingLine (name value : Bytes) : Bytes :=
  str "    " ++ name ++ str "=\"" ++ value ++ str "\""

/-- The lines that are written to `wpa_supplicant.conf`, if it is written, `writeimage.sh:110-122`. -/
def wpaSupplicantConf (st : Settings) : Option (List Bytes) :=
  if st.ssid ≠ [] then
    some ([str "update_config=1", str "ctrl_interface=/var/run/wpa_supplicant", str "network=\x7b",
      str "    scan_ssid=1", settingLine (str "ssid") st.ssid] ++
      (if st.psk ≠ [] then [settingLine (str "psk") st.psk] else []) ++ [str "\x7d", []])
  else none

/-- The lines of a setting. -/
def settingLines (name : Bytes) (conf : List Bytes) : List Bytes :=
  conf.filter fun l ↦ (str "    " ++ name ++ str "=").isPrefixOf l

/-- The file has exactly this name and exactly this key. -/
structure Contains (conf : List Bytes) (ssid psk : Bytes) : Prop where
  ssid : settingLines (str "ssid") conf = [settingLine (str "ssid") ssid]
  psk : settingLines (str "psk") conf = [settingLine (str "psk") psk]

variable (g names)

/-- Whether file names stand for a word. -/
def isReplaced (w : Bytes) : Bool := g.isPattern w && !(names w).isEmpty

/-- What is asked of the key, of which only the part in front of the first separator is a field of
its own: it has no separator, or that part is a pattern of which the key is the first file. -/
def KeySurvives (psk : Bytes) : Prop :=
  let key := psk.takeWhile (· ≠ 58)
  if isReplaced g names key then [psk] <+: names key else 58 ∉ psk

/-- What is asked of the name and the key: no file stands for the name, or only one that is called
like it, and the key survives; or the name is a pattern whose first two files are called like
the name and the key. -/
def Survives (ssid psk : Bytes) : Prop :=
  if isReplaced g names ssid then
    [ssid, psk] <+: names ssid ∨ (names ssid = [ssid] ∧ KeySurvives g names psk)
  else KeySurvives g names psk

instance (psk : Bytes) : Decidable (KeySurvives g names psk) :=
  inferInstanceAs (Decidable (if isReplaced g names (psk.takeWhile (· ≠ 58)) then _ else _))

instance (ssid psk : Bytes) : Decidable (Survives g names ssid psk) :=
  inferInstanceAs (Decidable (if isReplaced g names ssid then _ else _))

variable {g names} {ssid psk : Bytes}

/-- Where no file name fits, only a separator in the key is lost. -/
theorem survives_iff_of_noMatch (h : ∀ w, names w = []) :
    Survives g names ssid psk ↔ 58 ∉ psk := by
  simp [Survives, KeySurvives, isReplaced, h]

/-! ### Fields -/

theorem expand_of_isReplaced {w : Bytes} (h : isReplaced g names w) : expand g names w = names w :=
  if_pos h

theorem expand_of_not_isReplaced {w : Bytes} (h : isReplaced g names w = false) :
    expand g names w = [w] := if_neg (by simpa [isReplaced] using h)

/-- A field stands for one word at least. -/
theorem expand_ne_nil (w : Bytes) : expand g names w ≠ [] := by
  cases h : isReplaced g names w with
  | false => simp [expand_of_not_isReplaced h]
  | true =>
    rw [expand_of_isReplaced h]
    simp only [isReplaced, Bool.and_eq_true, Bool.not_eq_true', List.isEmpty_eq_false_iff] at h
    exact h.2

/-- The name is the first field, and the key up to its first separator is the second one. -/
theorem splitFields_network (hcolon : 58 ∉ ssid) (hpsk : psk ≠ []) :
    ∃ more, splitFields 58 (ssid ++ 58 :: psk) = ssid :: psk.takeWhile (· ≠ 58) :: more := by
  rw [splitFields, List.splitOn_append_cons_self_of_not_mem hcolon]
  by_cases h : (58 : UInt8) ∈ psk
  · obtain ⟨u, v, rfl, hu⟩ := List.eq_append_cons_of_mem h
    obtain ⟨w, ws, hws⟩ := List.exists_cons_of_ne_nil (List.splitOn_ne_nil (58 : UInt8) v)
    rw [List.splitOn_append_cons_self_of_not_mem hu, List.takeWhile_append_of_pos (forall_ne hu),
      List.takeWhile_cons_of_neg (by simp), List.append_nil, hws]
    split
    · exact ⟨_, rfl⟩
    · exact ⟨_, rfl⟩
  · rw [List.splitOn_eq_singleton h, List.takeWhile_eq_self_iff.mpr (forall_ne h)]
    exact ⟨[], if_neg fun hlast ↦ hpsk (Option.some.inj hlast)⟩

/-- The words of the option. -/
theorem fields_network (g : Globbing) (names : Bytes → List Bytes) (hcolon : 58 ∉ ssid)
    (hpsk : psk ≠ []) : ∃ more, fields g names (ssid ++ 58 :: psk) =
      expand g names ssid ++ (expand g names (psk.takeWhile (· ≠ 58)) ++ more) := by
  obtain ⟨more, hmore⟩ := splitFields_network hcolon hpsk
  exact ⟨more.flatMap (expand g names), by rw [fields, hmore]; rfl⟩

/-- The first two words of three lists of which two are not empty. -/
theorem elements_iff {a b more : List Bytes} (ha : a ≠ []) (hb : b ≠ []) (x y : Bytes) :
    element (a ++ (b ++ more)) 0 = x ∧ element (a ++ (b ++ more)) 1 = y ↔
      [x, y] <+: a ∨ (a = [x] ∧ [y] <+: b) := by
  obtain ⟨u, a, rfl⟩ := List.exists_cons_of_ne_nil ha
  obtain ⟨v, b, rfl⟩ := List.exists_cons_of_ne_nil hb
  cases a with
  | nil => simp [element, List.cons_prefix_cons, eq_comm]
  | cons w a => simp [element, List.cons_prefix_cons, eq_comm]

/-- The first two words of the option are the name and the key. -/
theorem elements_fields_iff (hcolon : 58 ∉ ssid) (hpsk : psk ≠ []) :
    element (fields g names (ssid ++ 58 :: psk)) 0 = ssid ∧
      element (fields g names (ssid ++ 58 :: psk)) 1 = psk ↔ Survives g names ssid psk := by
  obtain ⟨more, hmore⟩ := fields_network g names hcolon hpsk
  have hkey : [psk] <+: expand g names (psk.takeWhile (· ≠ 58)) ↔ KeySurvives g names psk := by
    unfold KeySurvives
    dsimp only
    split
    · next h => rw [expand_of_isReplaced h]
    · next h =>
      have hself : psk.takeWhile (· ≠ 58) = psk ↔ 58 ∉ psk :=
        List.takeWhile_eq_self_iff.trans
          ⟨fun hall hmem ↦ absurd (hall _ hmem) (by decide), forall_ne⟩
      rw [expand_of_not_isReplaced (by simpa using h), List.cons_prefix_cons,
        and_iff_left (List.prefix_refl []), eq_comm, hself]
  rw [hmore, elements_iff (expand_ne_nil _) (expand_ne_nil _), hkey, Survives]
  split
  · next h => rw [expand_of_isReplaced h]
  · next h =>
    rw [expand_of_not_isReplaced (by simpa using h)]
    simp [List.cons_prefix_cons]

/-! ### The file -/

theorem settingLine_inj {name v w : Bytes} : settingLine name v = settingLine name w ↔ v = w := by
  simp [settingLine]

/-- The file has the name and the key that the variables have. -/
theorem contains_wpaSupplicantConf_iff (st : Settings) (hssid : ssid ≠ []) (hpsk : psk ≠ []) :
    (∃ conf, wpaSupplicantConf st = some conf ∧ Contains conf ssid psk) ↔
      st.ssid = ssid ∧ st.psk = psk := by
  unfold wpaSupplicantConf
  by_cases hs : st.ssid = []
  · rw [if_neg (not_not.mpr hs), hs]
    refine ⟨?_, fun h ↦ absurd h.1.symm hssid⟩
    rintro ⟨conf, hconf, -⟩
    cases hconf
  · rw [if_pos hs]
    by_cases hp : st.psk = []
    · rw [if_neg (not_not.mpr hp), hp]
      refine ⟨?_, fun h ↦ absurd h.2.symm hpsk⟩
      rintro ⟨conf, hconf, hcontains⟩
      obtain rfl := Option.some.inj hconf
      exact nomatch hcontains.psk
    · rw [if_pos hp]
      constructor
      · rintro ⟨conf, hconf, hcontains⟩
        obtain rfl := Option.some.inj hconf
        exact ⟨settingLine_inj.mp (List.singleton_inj.mp hcontains.ssid),
          settingLine_inj.mp (List.singleton_inj.mp hcontains.psk)⟩
      · rintro ⟨rfl, rfl⟩
        exact ⟨_, rfl, ⟨rfl, rfl⟩⟩

/-- The text of the file has these lines, if the name and the key are each on one line. -/
theorem lines_wpaSupplicantConf {st : Settings} {conf : List Bytes}
    (h : wpaSupplicantConf st = some conf) (hssid : newline ∉ st.ssid) (hpsk : newline ∉ st.psk) :
    lines (unlines conf) = conf := by
  refine lines_unlines fun l hl ↦ ?_
  have hline {name v : Bytes} (hname : newline ∉ name) (hv : newline ∉ v) :
      newline ∉ settingLine name v := by
    simp only [settingLine, List.mem_append, not_or]
    exact ⟨⟨⟨⟨by decide, hname⟩, by decide⟩, hv⟩, by decide⟩
  unfold wpaSupplicantConf at h
  split at h
  · obtain rfl := Option.some.inj h
    simp only [List.mem_append, List.mem_cons, List.not_mem_nil, or_false] at hl
    have hkey : ∀ k ∈ (if st.psk ≠ [] then [settingLine (str "psk") st.psk] else []),
        newline ∉ k := by
      split
      · simpa using hline (by decide) hpsk
      · simp
    rcases hl with ((rfl | rfl | rfl | rfl | rfl) | hl) | rfl | rfl
    · decide
    · decide
    · decide
    · decide
    · exact hline (by decide) hssid
    · exact hkey l hl
    · decide
    · decide
  · cases h

/-! ### The options -/

/-- The other options leave the network alone. -/
theorem takeOption_network {st st' : Settings} {o : Letter × Bytes} (ho : o.1 ≠ .n)
    (h : takeOption g names st o = .ok st') : st'.ssid = st.ssid ∧ st'.psk = st.psk := by
  obtain ⟨letter, arg⟩ := o
  cases letter with
  | n => exact absurd rfl ho
  | other => cases h
  | d | i | s =>
    cases h
    exact ⟨rfl, rfl⟩

/-- The last option for a network sets it. -/
theorem takeOptions_network {st st' : Settings} {pre post : List (Letter × Bytes)} {optarg : Bytes}
    (hpost : ∀ o ∈ post, o.1 ≠ .n)
    (h : takeOptions g names st (pre ++ (.n, optarg) :: post) = .ok st') :
    st'.ssid = element (fields g names optarg) 0 ∧ st'.psk = element (fields g names optarg) 1 := by
  obtain ⟨st₁, hrun, hcheck⟩ := bind_ok.mp h
  obtain ⟨st₂, -, hrest⟩ := foldlM_append_ok.mp hrun
  obtain ⟨st₃, hn, hlater⟩ := foldlM_cons_ok.mp hrest
  have hst : st₁ = st' := by
    split at hcheck
    · cases hcheck
    · exact Except.ok.inj hcheck
  cases hn
  subst hst
  refine foldlM_preserves (fun st ↦ st.ssid = element (fields g names optarg) 0 ∧
    st.psk = element (fields g names optarg) 1) hlater ⟨rfl, rfl⟩ fun o ho s₁ s₂ hs hstep ↦ ?_
  obtain ⟨hssid, hpsk⟩ := takeOption_network (hpost o ho) hstep
  exact ⟨hssid.trans hs.1, hpsk.trans hs.2⟩

/-- After a run with an option for a network, the last one, the file has the name and the key if
and only if they survive being taken apart. -/
theorem writes_network_iff {st st' : Settings} {pre post : List (Letter × Bytes)}
    (hssid : ssid ≠ []) (hcolon : 58 ∉ ssid) (hpsk : psk ≠ []) (hpost : ∀ o ∈ post, o.1 ≠ .n)
    (hrun : takeOptions g names st (pre ++ (.n, ssid ++ 58 :: psk) :: post) = .ok st') :
    (∃ conf, wpaSupplicantConf st' = some conf ∧ Contains conf ssid psk) ↔
      Survives g names ssid psk := by
  obtain ⟨hname, hkey⟩ := takeOptions_network hpost hrun
  rw [contains_wpaSupplicantConf_iff st' hssid hpsk, hname, hkey,
    elements_fields_iff hcolon hpsk]

/-- A usual name and key, where no file name fits. -/
theorem writes_network_iff_mynet : ∃ conf, wpaSupplicantConf
      ⟨str "/dev/sdb", str "motionPie.img", str "mynet", str "mykey1234", [], [], []⟩ = some conf ∧
    Contains conf (str "mynet") (str "mykey1234") := by
  have hrun : takeOptions anyPattern (fun _ ↦ []) .unset ([(.d, str "/dev/sdb"),
      (.i, str "motionPie.img")] ++ (.n, str "mynet" ++ 58 :: str "mykey1234") :: []) =
      .ok ⟨str "/dev/sdb", str "motionPie.img", str "mynet", str "mykey1234", [], [], []⟩ := by
    decide
  exact (writes_network_iff (by decide) (by decide) (by decide) (by decide) hrun).mpr (by decide)

/-- A key with a separator in it is cut. -/
theorem colonKey_cut : takeOptions anyPattern (fun _ ↦ []) .unset [(.d, str "/dev/sdb"),
      (.i, str "motionPie.img"), (.n, str "mynet:pass:word1")] =
      .ok ⟨str "/dev/sdb", str "motionPie.img", str "mynet", str "pass", [], [], []⟩ ∧
    ¬ ∃ conf, wpaSupplicantConf
      ⟨str "/dev/sdb", str "motionPie.img", str "mynet", str "pass", [], [], []⟩ = some conf ∧
        Contains conf (str "mynet") (str "pass:word1") := by
  refine ⟨by decide, ?_⟩
  rw [contains_wpaSupplicantConf_iff _ (by decide) (by decide)]
  decide

end MotionPie.Writeimage
