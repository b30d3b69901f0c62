import MotionPie.Package.Motioneye.Watchctl
import MotionPie.Shell.Source

/-!
# watch.conf in the boot scripts

`S40network` and `S41netwatch` source `watch.conf` over their own defaults. They find in it what the
settings say: a connection that is not watched is a comment there, and `S41netwatch` exits since it
has no host.
-/

namespace MotionPie.Board.Common

open Base Shell Package.Motioneye.Watchctl

/-! ### The scripts -/

/-- The variables that `S40network` sets, `S40network:4-16`. -/
def networkDefaults : List (Bytes × Bytes) :=
  [(str "dh_conf", str "/var/cache/dhclient.conf"),
    (str "sys_static_conf", str "/etc/static_ip.conf"),
    (str "static_conf", str "/data/etc/static_ip.conf"),
    (str "watch_conf", str "/data/etc/watch.conf"),
    (str "link_watch", str "yes"),
    (str "link_watch_timeout", str "20"),
    (str "ip_watch", str "yes"),
    (str "ip_watch_timeout", str "40"),
    (str "link_nego_timeout", str "10"),
    (str "eth", str "eth0"),
    (str "wlan", str "wlan0")]

/-- The variables of `S40network` after `watch.conf`, `S40network:4-20`. -/
def network (vars : Vars) (watchConf : Option Bytes) : Option Vars :=
  match watchConf with
  | some content => source (setVars vars networkDefaults) content
  | none => some (setVars vars networkDefaults)

/-- The variables that `S41netwatch` sets, `S41netwatch:3-6`. -/
def netwatchDefaults : List (Bytes × Bytes) :=
  [(str "watch_conf", str "/data/etc/watch.conf"),
    (str "netwatch_retries", str "3"),
    (str "netwatch_timeout", str "5"),
    (str "netwatch_interval", str "20")]

/-- What `watch` of `S41netwatch` uses: the arguments of `nc`, the number in
`$(($netwatch_retries - 1))` and the arguments of `sleep`. -/
structure Netwatch where
  nc : List Bytes
  retries : Bytes
  sleep : List Bytes
  deriving DecidableEq

/-- `S41netwatch:3-34` up to the start of `watch`: `some none` when the script exits. -/
def netwatch (g : Globbing) (names : Bytes → List Bytes) (vars : Vars)
    (watchConf : Option Bytes) : Option (Option Netwatch) :=
  match watchConf with
  | none => some none
  | some content => (source (setVars vars netwatchDefaults) content).map fun vars ↦
    if vars (str "netwatch_host") = [] ∨ vars (str "netwatch_port") = [] then none
    else
      let nc := str "-z -w " ++ vars (str "netwatch_timeout") ++ str " " ++
        vars (str "netwatch_host") ++ str " " ++ vars (str "netwatch_port")
      some {
        nc := (splitWords nc).flatMap (expand g names)
        retries := vars (str "netwatch_retries")
        sleep := (splitWords (vars (str "netwatch_interval"))).flatMap (expand g names) }

/-! ### The assignments of the file -/

variable {vars : Vars} {s : WatchSettings}

/-- What is watched of a link or an address. -/
def watchVars (name timeout : Bytes) (s : WatchSettings) : List (Bytes × Bytes) :=
  [(name, yesNo s.watchLink), (timeout, showInt s.watchLinkTimeout)]

/-- The host, unless it is a comment. -/
def hostVars (s : WatchSettings) : List (Bytes × Bytes) :=
  if s.watchConnect then [(str "netwatch_host", s.watchConnectHost)] else []

/-- The numbers of the connection. -/
def netVars (s : WatchSettings) : List (Bytes × Bytes) :=
  [(str "netwatch_port", showInt s.watchConnectPort),
    (str "netwatch_retries", showInt s.watchConnectRetries),
    (str "netwatch_timeout", showInt s.watchConnectTimeout),
    (str "netwatch_interval", showInt s.watchConnectInterval)]

/-- The variables that the written file sets. -/
def assignments (s : WatchSettings) : List (Bytes × Bytes) :=
  watchVars (str "link_watch") (str "link_watch_timeout") s ++
    (watchVars (str "ip_watch") (str "ip_watch_timeout") s ++ (hostVars s ++ netVars s))

/-- A variable that is set to a plain word. -/
def Assignable (a : Bytes × Bytes) : Prop := isVariable a.1 = true ∧ ∀ b ∈ a.2, isPlain b = true

/-- Lines with plain words set their variables. -/
theorem foldlM_watchLine {as : List (Bytes × Bytes)} (h : ∀ a ∈ as, Assignable a) (vars : Vars)
    (rest : List Bytes) :
    ((as.map fun a ↦ watchLine a.1 a.2) ++ rest).foldlM assignLine vars =
      rest.foldlM assignLine (setVars vars as) := by
  induction as generalizing vars with
  | nil => rfl
  | cons a as ih =>
    rw [List.forall_mem_cons] at h
    obtain ⟨⟨hname, hplain⟩, has⟩ := h
    have hline : assignLine vars (watchLine a.1 a.2) = some (Function.update vars a.1 a.2) :=
      assignLine_plain hname (List.all_eq_true.mpr hplain)
    rw [List.map_cons, List.cons_append, List.foldlM_cons, hline]
    exact ih has _

/-- A number is a plain word. -/
theorem assignable_showInt {name : Bytes} (hname : isVariable name = true) (n : Int) :
    Assignable (name, showInt n) :=
  ⟨hname, fun _ ↦ isPlain_of_mem_showInt⟩

/-- The variables of a link or an address are set to plain words. -/
theorem assignable_watchVars {name timeout : Bytes} (hname : isVariable name = true)
    (htimeout : isVariable timeout = true) : ∀ a ∈ watchVars name timeout s, Assignable a := by
  intro a ha
  simp only [watchVars, List.mem_cons, List.not_mem_nil, or_false] at ha
  rcases ha with rfl | rfl
  · exact ⟨hname, isPlain_of_mem_yesNo⟩
  · exact assignable_showInt htimeout _

/-- The variables of the connection are set to plain words. -/
theorem assignable_netVars : ∀ a ∈ netVars s, Assignable a := by
  intro a ha
  simp only [netVars, List.mem_cons, List.not_mem_nil, or_false] at ha
  rcases ha with rfl | rfl | rfl | rfl <;> exact assignable_showInt (by decide) _

/-- The line of the host sets it, unless it is a comment. -/
theorem foldlM_hostLine (hhost : IsHost s.watchConnectHost) (vars : Vars) (rest : List Bytes) :
    (((if s.watchConnect then [] else str "#") ++
        watchLine (str "netwatch_host") s.watchConnectHost) :: rest).foldlM assignLine vars =
      rest.foldlM assignLine (setVars vars (hostVars s)) := by
  rw [hostVars, List.foldlM_cons]
  cases s.watchConnect with
  | true =>
    have hassign : Assignable (str "netwatch_host", s.watchConnectHost) :=
      ⟨(by decide : isVariable (str "netwatch_host") = true), hhost.plain⟩
    exact foldlM_watchLine (List.forall_mem_singleton.mpr hassign) vars rest
  | false =>
    have hcomment : assignLine vars (str "#" ++ watchLine (str "netwatch_host") s.watchConnectHost) =
        some vars := assignLine_comment _
    exact congrArg (· >>= fun vars ↦ rest.foldlM assignLine vars) hcomment

/-- Sourcing the written file sets its variables and does nothing else. -/
theorem source_setWatchSettings (vars : Vars) (hhost : IsHost s.watchConnectHost) :
    source vars (setWatchSettings s.dict) = some (setVars vars (assignments s)) := by
  have hlines : s.lines =
      (watchVars (str "link_watch") (str "link_watch_timeout") s).map
          (fun a ↦ watchLine a.1 a.2) ++ [] ::
        ((watchVars (str "ip_watch") (str "ip_watch_timeout") s).map
            (fun a ↦ watchLine a.1 a.2) ++ [] ::
          ((if s.watchConnect then [] else str "#") ++
              watchLine (str "netwatch_host") s.watchConnectHost) ::
            ((netVars s).map (fun a ↦ watchLine a.1 a.2) ++ [])) := rfl
  have hnul : s.lines.map (List.filter (· ≠ 0)) = s.lines :=
    map_filter_eq_self fun l hl ↦ (clear_lines hhost l hl).2
  have hblank : ∀ (vars : Vars) (rest : List Bytes),
      ([] :: rest).foldlM assignLine vars = rest.foldlM assignLine vars := by
    intro vars rest
    rw [List.foldlM_cons, assignLine, if_pos (.inl rfl)]
    rfl
  rw [setWatchSettings, setdefaults_dict, source_unlines fun l hl ↦ (clear_lines hhost l hl).1,
    hnul, hlines, foldlM_watchLine (assignable_watchVars (by decide) (by decide)), hblank,
    foldlM_watchLine (assignable_watchVars (by decide) (by decide)), hblank,
    foldlM_hostLine hhost, foldlM_watchLine assignable_netVars]
  simp only [assignments, setVars_append]
  rfl

/-! ### Agreement -/

/-- The variables that `S40network` reads. -/
theorem setVars_link (vars : Vars) (s : WatchSettings) :
    setVars vars (assignments s) (str "link_watch") = yesNo s.watchLink ∧
      setVars vars (assignments s) (str "ip_watch") = yesNo s.watchLink ∧
      setVars vars (assignments s) (str "link_watch_timeout") = showInt s.watchLinkTimeout ∧
      setVars vars (assignments s) (str "ip_watch_timeout") = showInt s.watchLinkTimeout := by
  simp only [setVars_eq, assignments, hostVars]
  cases s.watchConnect <;> exact ⟨rfl, rfl, rfl, rfl⟩

/-- The variables that `S41netwatch` reads. -/
theorem setVars_net (vars : Vars) (s : WatchSettings) :
    setVars vars (assignments s) (str "netwatch_host") =
        (if s.watchConnect then s.watchConnectHost else vars (str "netwatch_host")) ∧
      setVars vars (assignments s) (str "netwatch_port") = showInt s.watchConnectPort ∧
      setVars vars (assignments s) (str "netwatch_retries") = showInt s.watchConnectRetries ∧
      setVars vars (assignments s) (str "netwatch_timeout") = showInt s.watchConnectTimeout ∧
      setVars vars (assignments s) (str "netwatch_interval") = showInt s.watchConnectInterval := by
  simp only [setVars_eq, assignments, hostVars]
  cases s.watchConnect <;> exact ⟨rfl, rfl, rfl, rfl, rfl⟩

/-- What `S40network` reads. -/
theorem network_set (vars : Vars) (hhost : IsHost s.watchConnectHost) :
    ∃ seen, network vars (some (setWatchSettings s.dict)) = some seen ∧
      seen (str "link_watch") = yesNo s.watchLink ∧
      seen (str "ip_watch") = yesNo s.watchLink ∧
      seen (str "link_watch_timeout") = showInt s.watchLinkTimeout ∧
      seen (str "ip_watch_timeout") = showInt s.watchLinkTimeout :=
  ⟨_, source_setWatchSettings _ hhost, setVars_link _ s⟩

/-- What `S41netwatch` uses. -/
theorem netwatch_set (g : Globbing) (names : Bytes → List Bytes) (hhost : IsHost s.watchConnectHost)
    (hunset : vars (str "netwatch_host") = []) :
    netwatch g names vars (some (setWatchSettings s.dict)) =
      some (if s.watchConnect then
        some {
          nc := [str "-z", str "-w", showInt s.watchConnectTimeout, s.watchConnectHost,
            showInt s.watchConnectPort]
          retries := showInt s.watchConnectRetries
          sleep := [showInt s.watchConnectInterval] }
      else none) := by
  have hstart : setVars vars netwatchDefaults (str "netwatch_host") = [] := by
    rw [setVars_eq]
    exact hunset
  obtain ⟨hhostVar, hport, hretries, htimeout, hinterval⟩ :=
    setVars_net (setVars vars netwatchDefaults) s
  have hnumber : ∀ n, (splitWords (showInt n)).flatMap (expand g names) = [showInt n] :=
    fun n ↦ words_plain g names (showInt_ne_nil n) fun _ ↦ isPlain_of_mem_showInt
  have hnc : str "-z -w " ++ showInt s.watchConnectTimeout ++ str " " ++ s.watchConnectHost ++
      str " " ++ showInt s.watchConnectPort =
        str "-z" ++ 32 :: (str "-w" ++ 32 :: (showInt s.watchConnectTimeout ++
          32 :: (s.watchConnectHost ++ 32 :: showInt s.watchConnectPort))) := by
    simp [str]
  simp only [netwatch, source_setWatchSettings _ hhost, Option.map_some, hhostVar, hport,
    hretries, htimeout, hinterval, hstart]
  cases s.watchConnect with
  | false => rfl
  | true =>
    simp only [if_true, hhost.ne_nil, showInt_ne_nil, or_self, if_false, hnc, splitWords_append,
      List.flatMap_append, hnumber, words_plain g names hhost.ne_nil hhost.plain]
    rw [words_plain g names (by decide) (by decide), words_plain g names (by decide) (by decide)]
    rfl

/-- The getter, `S40network` and `S41netwatch` read what the settings say, when nothing but
`watch.conf` sets the host. -/
theorem watch_agree (s : WatchSettings) (hhost : IsHost s.watchConnectHost) (vars : Vars)
    (hunset : vars (str "netwatch_host") = []) (g : Globbing) (names : Bytes → List Bytes) :
    getWatchSettings (some (setWatchSettings s.dict)) = some s ∧
      (∃ seen, network vars (some (setWatchSettings s.dict)) = some seen ∧
        (seen (str "link_watch") = str "yes" ↔ s.watchLink = true) ∧
        (seen (str "ip_watch") = str "yes" ↔ s.watchLink = true) ∧
        seen (str "link_watch_timeout") = showInt s.watchLinkTimeout ∧
        seen (str "ip_watch_timeout") = showInt s.watchLinkTimeout) ∧
      netwatch g names vars (some (setWatchSettings s.dict)) =
        some (if s.watchConnect then
          some {
            nc := [str "-z", str "-w", showInt s.watchConnectTimeout, s.watchConnectHost,
              showInt s.watchConnectPort]
            retries := showInt s.watchConnectRetries
            sleep := [showInt s.watchConnectInterval] }
        else none) := by
  have hyes : ∀ b, yesNo b = str "yes" ↔ b = true := by decide
  obtain ⟨seen, hseen, hlink, hip, htimeouts⟩ := network_set vars hhost
  refine ⟨getWatchSettings_set hhost, ⟨seen, hseen, ?_, ?_, htimeouts⟩,
    netwatch_set g names hhost hunset⟩
  · rw [hlink, hyes]
  · rw [hip, hyes]

/-- A watched connection. -/
theorem watch_agree_watched :
    let s : WatchSettings := ⟨true, 60, true, str "example-1.org", 443, 5, 10, 30⟩
    getWatchSettings (some (setWatchSettings s.dict)) = some s ∧
      netwatch anyPattern (fun _ ↦ []) (fun _ ↦ []) (some (setWatchSettings s.dict)) =
        some (some {
          nc := [str "-z", str "-w", str "10", str "example-1.org", str "443"]
          retries := str "5"
          sleep := [str "30"] }) := by
  have hhost : IsHost (str "example-1.org") := ⟨by decide, by decide⟩
  have hagree := watch_agree ⟨true, 60, true, str "example-1.org", 443, 5, 10, 30⟩ hhost
    (fun _ ↦ []) rfl anyPattern (fun _ ↦ [])
  exact ⟨hagree.1, hagree.2.2⟩

end MotionPie.Board.Common
