import MotionPie.Board.Common.Watch
import MotionPie.Package.Motioneye.Ipctl

/-!
# static_ip.conf in the boot script

`S40network` sources `static_ip.conf` behind `watch.conf` and gives an interface the address it
finds, or asks a DHCP server when it finds none. It finds the address that was written and its
number of bits, unless the settings say DHCP.
-/

namespace MotionPie.Board.Common

open Base Shell Package.Motioneye.Watchctl Package.Motioneye.Ipctl

/-! ### The script -/

/-- The variables of `S40network` once it has read its files, `S40network:4-27`, for file names that
are words: `static_ip.conf` is copied from the system's when it is missing. -/
def networkStatic (vars : Vars) (files : Bytes → Option Bytes) : Option Vars :=
  (network vars (files (str "/data/etc/watch.conf"))).bind fun vars ↦
    match files (vars (str "static_conf")) <|> files (vars (str "sys_static_conf")) with
    | some content => source vars content
    | none => some vars

/-- The command that gives an interface its address, and the variables behind it,
`S40network:81-88` for the variable `wlan` and `S40network:132-139` for `eth`. -/
def startAddress (g : Globbing) (names : Bytes → List Bytes) (iface : Bytes) (vars : Vars) :
    List Bytes × Vars :=
  let words (s : Bytes) := (splitWords s).flatMap (expand g names)
  if vars (str "static_ip") ≠ [] then
    (str "ifconfig" :: (words (vars iface) ++ words (vars (str "static_ip")) ++ [str "up"]),
      Function.update vars (str "static_ip") [])
  else (str "dhclient" :: str "-cf" :: vars (str "dh_conf") :: words (vars iface), vars)

/-! ### The assignments of the file -/

/-- The variables that the written file sets. -/
def staticVars (comment : Bool) (ip cidr gw dns : Bytes) : List (Bytes × Bytes) :=
  if comment then []
  else [(str "static_ip", ip ++ 47 :: cidr), (str "static_gw", gw), (str "static_dns", dns)]

/-- A text of plain words and slashes stands for itself between quotes. -/
theorem literal_of_isText {s : Bytes} (hs : IsText s) : Literal s := by
  apply literal_of_inactive
  intro b hb
  rcases hs b hb with hplain | rfl
  · exact (inactive_of_isPlain hplain).1
  · rfl

/-- Sourcing the written file sets its variables, unless they are comments. -/
theorem source_ipLines (vars : Vars) (comment : Bool) {ip cidr gw dns : Bytes} (hip : IsText ip)
    (hcidr : ∀ b ∈ cidr, isPlain b = true) (hgw : IsText gw) (hdns : IsText dns) :
    source vars (unlines (ipLines comment ip cidr gw dns)) =
      some (setVars vars (staticVars comment ip cidr gw dns)) := by
  have hnul : (ipLines comment ip cidr gw dns).map (List.filter (· ≠ 0)) =
      ipLines comment ip cidr gw dns :=
    map_filter_eq_self fun l hl ↦ (clear_ipLines hip hcidr hgw hdns l hl).2
  rw [source_unlines fun l hl ↦ (clear_ipLines hip hcidr hgw hdns l hl).1, hnul]
  cases comment with
  | true =>
    have hcomment : ∀ (vars : Vars) (name value : Bytes),
        assignLine vars (str "#" ++ quotedLine name value) = some vars :=
      fun vars name value ↦ assignLine_comment _
    simp only [ipLines, List.map_cons, List.map_nil, List.foldlM_cons, List.foldlM_nil, if_true,
      hcomment, Option.bind_eq_bind, Option.bind_some]
    rfl
  | false =>
    have haddress : IsText (ip ++ 47 :: cidr) := isText_append hip hcidr
    have hline : ∀ (vars : Vars) {name value : Bytes}, isVariable name = true → IsText value →
        assignLine vars (quotedLine name value) = some (Function.update vars name value) :=
      fun vars _ _ hname hvalue ↦ assignLine_literal hname (literal_of_isText hvalue)
    simp only [ipLines, List.map_cons, List.map_nil, List.foldlM_cons, List.foldlM_nil,
      Bool.false_eq_true, if_false, List.nil_append]
    rw [hline vars (by decide) haddress, Option.bind_eq_bind, Option.bind_some,
      hline _ (by decide) hgw, Option.bind_some, hline _ (by decide) hdns, Option.bind_some]
    rfl

/-- The address that the file leaves in its variable. -/
theorem setVars_staticVars (vars : Vars) (comment : Bool) (ip cidr gw dns : Bytes) :
    setVars vars (staticVars comment ip cidr gw dns) (str "static_ip") =
      if comment then vars (str "static_ip") else ip ++ 47 :: cidr := by
  rw [setVars_eq]
  cases comment <;> rfl

/-! ### Agreement -/

/-- The getter reads what the settings say, and the shell finds the address and the number of bits
if and only if it is static. -/
theorem static_ip_agree (s : IpSettings) (n : Nat) (h : IsIpSettings s n) :
    ∃ content, setIpSettings s.dict = some content ∧ getIpSettings (some content) = some s ∧
      ∀ vars : Vars, ∃ seen, source vars content = some seen ∧
        seen (str "static_ip") =
          if s.ipConfigType = str "static" then s.ipConfigStaticAddr ++ 47 :: showNat n
          else vars (str "static_ip") := by
  obtain ⟨gw, hgw⟩ := h.gw
  obtain ⟨dns, hdns⟩ := h.dns
  obtain ⟨addr, haddr⟩ := h.addr
  obtain ⟨content, hset, hget⟩ := getIpSettings_set h
  refine ⟨content, hset, hget, fun vars ↦ ?_⟩
  have hquad : ∀ x, IsText (dotted x) := fun x ↦ isText_of_isPlain fun b ↦ isPlain_of_mem_dotted
  have hip : IsText s.ipConfigStaticAddr := haddr ▸ hquad addr
  have hcidr : ∀ b ∈ showNat n, isPlain b = true := fun b ↦ isPlain_of_mem_showNat
  rw [setIpSettings_dict h.bits h.mask hgw hdns] at hset
  obtain rfl := Option.some.inj hset
  refine ⟨_, source_ipLines vars _ hip hcidr (hquad gw) (hquad dns), ?_⟩
  rw [setVars_staticVars]
  rcases h.type with htype | htype
  · rw [htype]
    rfl
  · rw [htype]
    rfl

/-- A static address. -/
theorem static_ip_agree_home :
    let s : IpSettings := ⟨str "static", str "192.168.1.101", str "255.255.240.0",
      some (str "192.168.1.1"), some (str "8.8.8.8")⟩
    ∃ content, setIpSettings s.dict = some content ∧ getIpSettings (some content) = some s ∧
      ∀ vars : Vars, ∃ seen, source vars content = some seen ∧
        seen (str "static_ip") = str "192.168.1.101/20" := by
  have hsettings : IsIpSettings ⟨str "static", str "192.168.1.101", str "255.255.240.0",
      some (str "192.168.1.1"), some (str "8.8.8.8")⟩ 20 :=
    ⟨.inr rfl, ⟨0xc0a80165#32, by decide⟩, by decide, by decide, ⟨0xc0a80101#32, by decide⟩,
      ⟨0x08080808#32, by decide⟩⟩
  obtain ⟨content, hset, hget, hsource⟩ := static_ip_agree _ 20 hsettings
  refine ⟨content, hset, hget, fun vars ↦ ?_⟩
  obtain ⟨seen, hseen, hip⟩ := hsource vars
  exact ⟨seen, hseen, hip.trans rfl⟩

/-! ### The address of an interface -/

/-- The variables that `S40network` needs later are its own behind a `watch.conf` that the setter
has written, or behind none. -/
theorem network_own (vars : Vars) {watchConf : Option Bytes}
    (hwatch : ∀ content ∈ watchConf, ∃ w : WatchSettings, IsHost w.watchConnectHost ∧
      content = setWatchSettings w.dict) :
    ∃ mid, network vars watchConf = some mid ∧
      mid (str "static_conf") = str "/data/etc/static_ip.conf" ∧
      mid (str "dh_conf") = str "/var/cache/dhclient.conf" ∧
      mid (str "wlan") = str "wlan0" ∧ mid (str "eth") = str "eth0" ∧
      mid (str "static_ip") = vars (str "static_ip") := by
  cases watchConf with
  | none =>
    refine ⟨_, rfl, ?_⟩
    simp only [setVars_eq]
    exact ⟨rfl, rfl, rfl, rfl, rfl⟩
  | some content =>
    obtain ⟨w, hhost, rfl⟩ := hwatch content rfl
    refine ⟨_, source_setWatchSettings _ hhost, ?_⟩
    simp only [setVars_eq, assignments, hostVars]
    cases w.watchConnect <;> exact ⟨rfl, rfl, rfl, rfl, rfl⟩

/-- A text of plain words and slashes is left as the only word. -/
theorem words_text (g : Globbing) (names : Bytes → List Bytes) {w : Bytes} (hne : w ≠ [])
    (hw : IsText w) : (splitWords w).flatMap (expand g names) = [w] := by
  have hblank : ∀ b ∈ w, isBlank b = false := by
    intro b hb
    by_contra htrue
    simp only [isBlank, Bool.not_eq_false, Bool.or_eq_true, decide_eq_true_eq] at htrue
    rcases htrue with (rfl | rfl) | rfl <;> exact hw.notMem (by decide) (by decide) hb
  have hpattern : g.isPattern w = false := by
    by_contra htrue
    rcases g.special w (by simpa using htrue) with hmem | hmem | hmem <;>
      exact hw.notMem (by decide) (by decide) hmem
  rw [splitWords_word hne hblank, List.flatMap_singleton]
  simp [expand, hpattern]

/-- `S40network` starts an interface with the address and the number of bits of the settings, or
asks a DHCP server. -/
theorem startAddress_set (g : Globbing) (names : Bytes → List Bytes) {s : IpSettings} {n : Nat}
    (h : IsIpSettings s n) {vars : Vars} (hunset : vars (str "static_ip") = [])
    {files : Bytes → Option Bytes}
    (hwatch : ∀ content ∈ files (str "/data/etc/watch.conf"),
      ∃ w : WatchSettings, IsHost w.watchConnectHost ∧ content = setWatchSettings w.dict)
    (hstatic : files (str "/data/etc/static_ip.conf") = setIpSettings s.dict) :
    ∃ seen, networkStatic vars files = some seen ∧
      (startAddress g names (str "wlan") seen).1 =
        if s.ipConfigType = str "static" then
          [str "ifconfig", str "wlan0", s.ipConfigStaticAddr ++ 47 :: showNat n, str "up"]
        else [str "dhclient", str "-cf", str "/var/cache/dhclient.conf", str "wlan0"] := by
  obtain ⟨gw, hgw⟩ := h.gw
  obtain ⟨dns, hdns⟩ := h.dns
  obtain ⟨addr, haddr⟩ := h.addr
  have hquad : ∀ x, IsText (dotted x) := fun x ↦ isText_of_isPlain fun b ↦ isPlain_of_mem_dotted
  have hip : IsText s.ipConfigStaticAddr := haddr ▸ hquad addr
  have hcidr : ∀ b ∈ showNat n, isPlain b = true := fun b ↦ isPlain_of_mem_showNat
  obtain ⟨mid, hnetwork, hconf, hdhclient, hwlan, -, hip0⟩ := network_own vars hwatch
  rw [setIpSettings_dict h.bits h.mask hgw hdns] at hstatic
  have hrun : networkStatic vars files = some (setVars mid (staticVars
      (s.ipConfigType = str "dhcp") s.ipConfigStaticAddr (showNat n) (dotted gw) (dotted dns))) := by
    rw [networkStatic, hnetwork, Option.bind_some, hconf, hstatic]
    exact source_ipLines mid _ hip hcidr (hquad gw) (hquad dns)
  refine ⟨_, hrun, ?_⟩
  have hkept : ∀ name ∈ [str "dh_conf", str "wlan"],
      setVars mid (staticVars (s.ipConfigType = str "dhcp") s.ipConfigStaticAddr (showNat n)
        (dotted gw) (dotted dns)) name = mid name := by
    intro name hname
    simp only [List.mem_cons, List.not_mem_nil, or_false] at hname
    rw [setVars_eq, staticVars]
    rcases hname with rfl | rfl <;> split <;> rfl
  have hwords : (splitWords (str "wlan0")).flatMap (expand g names) = [str "wlan0"] :=
    words_plain g names (by decide) (by decide)
  have haddress := words_text g names (by simp) (isText_append hip hcidr)
  simp only [startAddress, setVars_staticVars, hkept _ List.mem_cons_self,
    hkept _ (List.mem_cons_of_mem _ List.mem_cons_self), hwlan, hdhclient, hip0, hunset, hwords]
  rcases h.type with htype | htype
  · simp only [htype, decide_true, if_true, ne_eq, not_true_eq_false, if_false]
    rfl
  · have hdhcp : decide (str "static" = str "dhcp") = false := by decide
    have hne : s.ipConfigStaticAddr ++ 47 :: showNat n ≠ [] := by simp
    simp only [htype, hdhcp, Bool.false_eq_true, if_false, hne, ne_eq, not_false_eq_true, if_true,
      haddress]
    rfl

end MotionPie.Board.Common
