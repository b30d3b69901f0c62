import MotionPie.Package.Motioneye.Ipctl.Lines

/-!
# Saving what has been read

Of a static address whose gateway or server is a comment, the getter returns `None` for it, and the
setter writes the text `None`. Any other settings that can be read from a file are the same when
they have been written and are read again.
-/

namespace MotionPie.Package.Motioneye.Ipctl

open Base Watchctl

/-- Settings that are the same when they have been written and are read again. -/
def Stable (s : IpSettings) : Prop :=
  ∃ content, setIpSettings s.dict = some content ∧ getIpSettings (some content) = some s

/-- When the last line of an address is no comment, neither are the last lines of a gateway and of a
server. -/
def Complete (staticIpConf : Option Bytes) : Prop :=
  ∀ e ∈ lastMatch matchIp staticIpConf, e.1 = false →
    (∀ f ∈ lastMatch matchGw staticIpConf, f.1 = false) ∧
      ∀ f ∈ lastMatch matchDns staticIpConf, f.1 = false

/-! ### Values that are read -/

/-- The text of a line has no terminator. -/
theorem newline_notMem_ipEntry {content line : Bytes} (hl : line ∈ readlines content) :
    newline ∉ (ipEntry line).2 := by
  have hstrip := newline_notMem_strip (mem_readlines hl)
  have hsub : stripByte 35 (strip line) ⊆ strip line := fun x hx ↦
    (List.dropWhile_suffix _).subset ((List.rdropWhile_prefix _ _).subset hx)
  simp only [ipEntry]
  split
  · exact fun hmem ↦ hstrip (hsub hmem)
  · exact hstrip

/-- The last match is a match of a line. -/
theorem exists_of_lastMatch {α : Type} {m : Bytes → Option α} {staticIpConf : Option Bytes}
    {e : Bool × α} (h : lastMatch m staticIpConf = some e) :
    ∃ t, newline ∉ t ∧ m t = some e.2 := by
  obtain ⟨line, hline, hmatch⟩ := List.mem_filterMap.mp (List.mem_of_getLast? h)
  obtain ⟨v, hv, rfl⟩ := Option.map_eq_some_iff.mp hmatch
  exact ⟨_, newline_notMem_ipEntry hline, hv⟩

/-- A quoted value that is read has no terminator. -/
theorem newline_notMem_quoted {name : Bytes} {staticIpConf : Option Bytes} {e : Bool × Bytes}
    (h : lastMatch (matchQuoted name) staticIpConf = some e) : newline ∉ e.2 := by
  obtain ⟨t, ht, hmatch⟩ := exists_of_lastMatch h
  rw [eq_of_matchQuoted hmatch, mem_quotedLine] at ht
  tauto

/-- An address that is read has no terminator. -/
theorem newline_notMem_ip {staticIpConf : Option Bytes} {e : Bool × Bytes × Bytes}
    (h : lastMatch matchIp staticIpConf = some e) : newline ∉ e.2.1 := by
  obtain ⟨t, ht, hmatch⟩ := exists_of_lastMatch h
  rw [(eq_of_matchSlash hmatch).1, mem_quotedLine, List.mem_append] at ht
  tauto

/-- The masks that the getter shows. -/
theorem exists_of_maskOf {cidr : Int} {mask : Bytes} (h : maskOf cidr = some mask) :
    ∃ n ≤ 32, mask = dotted (netmask n) := by
  have hle : cidr ≤ 32 := by
    by_contra hgt
    rw [maskOf, if_pos (.inl (by omega))] at h
    cases h
  cases cidr with
  | ofNat n =>
    have hn : n ≤ 32 := Int.ofNat_le.mp hle
    have hmask := maskOf_bits hn
    exact ⟨n, hn, Option.some.inj (h.symm.trans hmask)⟩
  | negSucc n =>
    -- No bit is set, as for a prefix of zero.
    have hnone : ((List.range 32).filter fun i : Nat ↦ 32 - Int.negSucc n ≤ (i : Int)) = [] := by
      rw [List.filter_eq_nil_iff]
      intro i hi
      rw [List.mem_range] at hi
      simp only [decide_eq_true_eq]
      omega
    rw [maskOf] at h
    split at h
    · cases h
    · rw [hnone] at h
      obtain rfl := Option.some.inj h
      exact ⟨0, by decide, by decide⟩

/-! ### The settings of a file -/

variable {staticIpConf : Option Bytes} {s : IpSettings}

/-- What the last matches make of the settings. -/
structure FromMatches (staticIpConf : Option Bytes) (s : IpSettings) : Prop where
  type : s.ipConfigType =
    if (lastMatch matchIp staticIpConf).any (!·.1) then str "static" else str "dhcp"
  addr : s.ipConfigStaticAddr =
    (lastMatch matchIp staticIpConf).elim (str "192.168.1.101") fun e ↦ e.2.1
  mask : ∃ n ≤ 32, s.ipConfigStaticMask = dotted (netmask n)
  gw : s.ipConfigStaticGw =
    if (lastMatch matchGw staticIpConf).any (·.1) ∧ s.ipConfigType = str "static" then none
    else some ((lastMatch matchGw staticIpConf).elim (str "192.168.1.1") Prod.snd)
  dns : s.ipConfigStaticDns =
    if (lastMatch matchDns staticIpConf).any (·.1) ∧ s.ipConfigType = str "static" then none
    else some ((lastMatch matchDns staticIpConf).elim (str "8.8.8.8") Prod.snd)

/-- The settings that are read are made of the last matches. -/
theorem fromMatches (h : getIpSettings staticIpConf = some s) : FromMatches staticIpConf s := by
  rw [getIpSettings, foldl_readIpLine, IpState.settings] at h
  obtain ⟨cidr, -, hsettings⟩ := Option.bind_eq_some_iff.mp h
  obtain ⟨mask, hmask, rfl⟩ := Option.map_eq_some_iff.mp hsettings
  have hlast : ∀ {α : Type} (m : Bytes → Option α),
      (found m (readlines (staticIpConf.getD []))).getLast? = lastMatch m staticIpConf :=
    fun m ↦ rfl
  simp only [hlast]
  refine ⟨?_, ?_, exists_of_maskOf hmask, ?_, ?_⟩
  · rcases lastMatch matchIp staticIpConf with _ | ⟨comment, v⟩
    · rfl
    · cases comment <;> rfl
  · cases lastMatch matchIp staticIpConf <;> rfl
  · cases lastMatch matchGw staticIpConf <;> rfl
  · cases lastMatch matchDns staticIpConf <;> rfl

/-- The settings are those of a DHCP client or of a static address. -/
theorem FromMatches.type_cases (h : FromMatches staticIpConf s) :
    s.ipConfigType = str "dhcp" ∨ s.ipConfigType = str "static" := by
  rw [h.type]
  split
  · exact .inr rfl
  · exact .inl rfl

/-- The address is static when the last line of an address is no comment. -/
theorem FromMatches.static_iff (h : FromMatches staticIpConf s) :
    s.ipConfigType = str "static" ↔ ∃ e ∈ lastMatch matchIp staticIpConf, e.1 = false := by
  have hne : str "dhcp" ≠ str "static" := by decide
  rw [h.type]
  cases lastMatch matchIp staticIpConf with
  | none => simpa using hne
  | some e =>
    cases hcomment : e.1 with
    | false => simp [hcomment]
    | true => simpa [hcomment] using hne

/-- The settings have a gateway and a server if and only if the file is complete. -/
theorem FromMatches.complete_iff (h : FromMatches staticIpConf s) :
    Complete staticIpConf ↔ s.ipConfigStaticGw ≠ none ∧ s.ipConfigStaticDns ≠ none := by
  have hgiven : ∀ (v : Value) (o : Option (Bool × Bytes)) (t : Bytes),
      v = (if o.any (·.1) ∧ s.ipConfigType = str "static" then none else some t) →
      (v ≠ none ↔ (s.ipConfigType = str "static" → ∀ f ∈ o, f.1 = false)) := by
    rintro v o t rfl
    cases o with
    | none => simp
    | some f => cases hcomment : f.1 <;> simp [hcomment]
  rw [hgiven _ _ _ h.gw, hgiven _ _ _ h.dns, h.static_iff, Complete]
  constructor
  · exact fun hall ↦ ⟨fun ⟨e, he, hcomment⟩ ↦ (hall e he hcomment).1,
      fun ⟨e, he, hcomment⟩ ↦ (hall e he hcomment).2⟩
  · exact fun hall e he hcomment ↦ ⟨hall.1 ⟨e, he, hcomment⟩, hall.2 ⟨e, he, hcomment⟩⟩

/-- The values that are written have no terminators. -/
theorem FromMatches.clear (h : FromMatches staticIpConf s) :
    newline ∉ s.ipConfigStaticAddr ∧ newline ∉ s.ipConfigStaticGw.format ∧
      newline ∉ s.ipConfigStaticDns.format := by
  have hvalue : ∀ (name t : Bytes) (v : Value), newline ∉ t →
      (v = none ∨
        v = some ((lastMatch (matchQuoted name) staticIpConf).elim t Prod.snd)) →
      newline ∉ v.format := by
    intro name t v ht hv
    rcases hv with rfl | rfl
    · decide
    · cases hlast : lastMatch (matchQuoted name) staticIpConf with
      | none => exact ht
      | some e => exact newline_notMem_quoted hlast
  refine ⟨?_, hvalue (str "static_gw") (str "192.168.1.1") _ (by decide) ?_,
    hvalue (str "static_dns") (str "8.8.8.8") _ (by decide) ?_⟩
  · rw [h.addr]
    cases hlast : lastMatch matchIp staticIpConf with
    | none => decide
    | some e => exact newline_notMem_ip hlast
  · rw [h.gw]
    exact ite_eq_or_eq ..
  · rw [h.dns]
    exact ite_eq_or_eq ..

/-! ### Saving -/

/-- What is read when the settings have been written: `None` has become a text. -/
theorem FromMatches.resaved (h : FromMatches staticIpConf s) :
    ∃ content, setIpSettings s.dict = some content ∧
      getIpSettings (some content) = some { s with
        ipConfigStaticGw := some s.ipConfigStaticGw.format
        ipConfigStaticDns := some s.ipConfigStaticDns.format } := by
  obtain ⟨n, hn, hmask⟩ := h.mask
  obtain ⟨haddr, hgw, hdns⟩ := h.clear
  refine ⟨_, setIpSettings_mask hn hmask, ?_⟩
  have hclear : ∀ comment : Bool, ∀ l ∈ ipLines comment s.ipConfigStaticAddr (showNat n)
      s.ipConfigStaticGw.format s.ipConfigStaticDns.format, newline ∉ l := by
    intro comment l hl
    have hnumber : newline ∉ showNat n := notMem_showNat (by decide) n
    obtain ⟨⟨name, value⟩, ha, rfl⟩ := List.mem_map.mp hl
    have hparts : newline ∉ name ∧ newline ∉ value := by
      simp only [List.mem_cons, List.not_mem_nil, or_false, Prod.mk.injEq] at ha
      rcases ha with ⟨rfl, rfl⟩ | ⟨rfl, rfl⟩ | ⟨rfl, rfl⟩
      · refine ⟨by decide, ?_⟩
        simpa using ⟨haddr, by decide, hnumber⟩
      · exact ⟨by decide, hgw⟩
      · exact ⟨by decide, hdns⟩
    have hcomment : newline ∉ (if comment then str "#" else []) := by
      cases comment <;> decide
    rw [List.mem_append, mem_quotedLine]
    have hequals : newline ≠ 61 := by decide
    have hquote : newline ≠ 34 := by decide
    tauto
  have hslash : 47 ∉ showNat n := fun hmem ↦ absurd (isDigit_of_mem_showNat hmem) (by decide)
  have hread : toInt (showNat n) = some (n : Int) := toInt_showInt n
  rw [getIpSettings, Option.getD_some, readlines_unlines (hclear _), foldl_ipLines _ _ hslash]
  simp only [IpState.settings, hread, Option.bind_some, maskOf_bits hn, Option.map_some,
    Option.getD_some, Option.some.injEq]
  obtain ⟨type, addr, mask, gw, dns⟩ := s
  obtain rfl := hmask
  rcases h.type_cases with htype | htype
  · obtain rfl := htype
    rfl
  · obtain rfl := htype
    rfl

/-- Saving what has been read changes nothing if and only if the file is complete. -/
theorem stable_iff (h : getIpSettings staticIpConf = some s) : Stable s ↔ Complete staticIpConf := by
  have hmatches := fromMatches h
  obtain ⟨content, hset, hget⟩ := hmatches.resaved
  rw [hmatches.complete_iff]
  constructor
  · rintro ⟨content', hset', hget'⟩
    obtain rfl := Option.some.inj (hset.symm.trans hset')
    have heq := Option.some.inj (hget.symm.trans hget')
    constructor
    · rw [← congrArg IpSettings.ipConfigStaticGw heq]
      simp
    · rw [← congrArg IpSettings.ipConfigStaticDns heq]
      simp
  · rintro ⟨hgw, hdns⟩
    obtain ⟨gw, hgw⟩ := Option.ne_none_iff_exists'.mp hgw
    obtain ⟨dns, hdns⟩ := Option.ne_none_iff_exists'.mp hdns
    refine ⟨content, hset, hget.trans ?_⟩
    have hformat : ∀ t : Bytes, Value.format (some t) = t := fun t ↦ rfl
    rw [hgw, hdns, hformat, hformat, ← hgw, ← hdns]

/-- A file of a static address. -/
theorem stable_iff_static :
    Stable ⟨str "static", str "192.168.1.10", str "255.255.255.0", some (str "192.168.1.1"),
        some (str "8.8.8.8")⟩ ↔
      Complete (some (str "static_ip=\"192.168.1.10/24\"\nstatic_gw=\"192.168.1.1\"\n")) :=
  stable_iff (by decide)

/-- A static address with its gateway in a comment gets a gateway of the name `None`. -/
theorem gateway_not_stable :
    getIpSettings (some (str "static_ip=\"192.168.1.10/24\"\n#static_gw=\"192.168.1.1\"\n")) =
        some ⟨str "static", str "192.168.1.10", str "255.255.255.0", none, some (str "8.8.8.8")⟩ ∧
      ¬ Stable ⟨str "static", str "192.168.1.10", str "255.255.255.0", none,
        some (str "8.8.8.8")⟩ := by
  refine ⟨by decide, ?_⟩
  rintro ⟨content, hset, hget⟩
  have hread : (setIpSettings (IpSettings.dict ⟨str "static", str "192.168.1.10",
      str "255.255.255.0", none, some (str "8.8.8.8")⟩)).bind (fun c ↦ getIpSettings (some c)) =
        some ⟨str "static", str "192.168.1.10", str "255.255.255.0", some (str "None"),
          some (str "8.8.8.8")⟩ := by decide
  rw [hset, Option.bind_some, hget] at hread
  cases hread

end MotionPie.Package.Motioneye.Ipctl
