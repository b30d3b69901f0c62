import Mathlib.Algebra.Ring.Int.Defs
import MotionPie.Package.Motioneye.Watchctl

/-!
# static_ip.conf

`_get_ip_settings` and `_set_ip_settings` of `package/motioneye/ipctl.py`. The file always has the
three settings of a static address; that the address is asked of a DHCP server is written by turning
them into comments. The mask is written as the number of its bits.
-/

namespace MotionPie.Package.Motioneye.Ipctl

open Base Watchctl

/-- A value of a setting: `none` is Python's `None`. -/
abbrev Value := Option Bytes

/-- `'%s' % v`. -/
def Value.format (v : Value) : Bytes := v.getD (str "None")

/-- The IP settings that the getter returns. -/
structure IpSettings where
  ipConfigType : Bytes
  ipConfigStaticAddr : Bytes
  ipConfigStaticMask : Bytes
  ipConfigStaticGw : Value
  ipConfigStaticDns : Value
  deriving DecidableEq

/-- The dictionary that `_set_ip_settings` is given: a field is `none` when the key is missing. -/
structure IpDict where
  ipConfigType : Option Value
  ipConfigStaticAddr : Option Value
  ipConfigStaticMask : Option Value
  ipConfigStaticGw : Option Value
  ipConfigStaticDns : Option Value

/-- A dictionary with all keys. -/
def IpSettings.dict (s : IpSettings) : IpDict where
  ipConfigType := some s.ipConfigType
  ipConfigStaticAddr := some s.ipConfigStaticAddr
  ipConfigStaticMask := some s.ipConfigStaticMask
  ipConfigStaticGw := some s.ipConfigStaticGw
  ipConfigStaticDns := some s.ipConfigStaticDns

/-! ### _set_ip_settings -/

/-- `bin(n)`. -/
def bin : Int → Bytes
  | .ofNat n => str "0b" ++ (Nat.toDigits 2 n).map fun c ↦ c.toNat.toUInt8
  | .negSucc n => str "-0b" ++ (Nat.toDigits 2 (n + 1)).map fun c ↦ c.toNat.toUInt8

/-- `s.zfill(n)`, for a text without a sign. -/
def zfill (n : Nat) (s : Bytes) : Bytes := s.leftpad n 48

/-- The number of bits of a mask, `package/motioneye/ipctl.py:117-122`; `none` when `int` raises an
error. -/
def cidrOf (mask : Value) : Option Bytes :=
  let mask := mask.getD []
  if mask = [] then some (str "24")
  else
    ((mask.splitOn 46).mapM toInt).map fun octets ↦
      let binaryStr := octets.flatMap fun octet ↦ zfill 8 ((bin octet).drop 2)
      showNat (binaryStr.rdropWhile (· = 48)).length

/-- `'name="value"'`. -/
def quotedLine (name value : Bytes) : Bytes := name ++ 61 :: 34 :: (value ++ [34])

/-- The lines that the setter writes, `package/motioneye/ipctl.py:124-128`. -/
def ipLines (comment : Bool) (ip cidr gw dns : Bytes) : List Bytes :=
  [(str "static_ip", ip ++ 47 :: cidr), (str "static_gw", gw), (str "static_dns", dns)].map
    fun a ↦ (if comment then str "#" else []) ++ quotedLine a.1 a.2

/-- Whether the message of `package/motioneye/ipctl.py:113-115` finds all keys it names. -/
def IpDict.complete (s : IpDict) : Bool :=
  s.ipConfigType.isSome && s.ipConfigStaticAddr.isSome && s.ipConfigStaticMask.isSome &&
    s.ipConfigStaticGw.isSome && s.ipConfigStaticDns.isSome

/-- `_set_ip_settings`, `package/motioneye/ipctl.py:106-128`: the new `static_ip.conf`. The result
is `none` for an error: a key is missing, which the message before the file is opened does not
survive, or the mask has something else than numbers. -/
def setIpSettings (s : IpDict) : Option Bytes :=
  let type := s.ipConfigType.getD (some (str "dhcp"))
  let ip := s.ipConfigStaticAddr.getD (some (str "192.168.1.101"))
  let mask := s.ipConfigStaticMask.getD (some (str "255.255.255.0"))
  let gw := s.ipConfigStaticGw.getD (some (str "192.168.1.1"))
  let dns := s.ipConfigStaticDns.getD (some (str "8.8.8.8"))
  if s.complete then
    (cidrOf mask).map fun cidr ↦
      unlines (ipLines (type = some (str "dhcp")) ip.format cidr gw.format dns.format)
  else none

/-! ### _get_ip_settings -/

/-- The group of `'^name="(.*)"$'`, for a line without a terminator. -/
def matchQuoted (name line : Bytes) : Option Bytes :=
  if (name ++ [61, 34]).isPrefixOf line then
    let rest := line.drop (name.length + 2)
    if rest.getLast? = some 34 then some rest.dropLast else none
  else none

/-- The groups of `'^name="(.*)/(.*)"$'`: the text splits at its last slash. -/
def matchSlash (name line : Bytes) : Option (Bytes × Bytes) :=
  (matchQuoted name line).bind fun s ↦
    if 47 ∈ s then some ((s.rdropWhile (· ≠ 47)).dropLast, s.rtakeWhile (· ≠ 47)) else none

/-- The variables of the getter. -/
structure IpState where
  ip : Value
  ipComment : Bool
  cidr : Bytes
  gw : Bytes
  gwComment : Bool
  dns : Bytes
  dnsComment : Bool

/-- Whether a line is a comment, and its text, `package/motioneye/ipctl.py:42-48`. -/
def ipEntry (line : Bytes) : Bool × Bytes :=
  let line := strip line
  if line.head? = some 35 then (true, stripByte 35 line) else (false, line)

/-- The loop body, `package/motioneye/ipctl.py:42-69`. -/
def readIpLine (s : IpState) (line : Bytes) : IpState :=
  let (comment, line) := ipEntry line
  if line = [] then s
  else match matchSlash (str "static_ip") line with
    | some (ip, cidr) => { s with ip := some ip, cidr := cidr, ipComment := comment }
    | none =>
      match matchQuoted (str "static_gw") line with
      | some gw => { s with gw := gw, gwComment := comment }
      | none =>
        match matchQuoted (str "static_dns") line with
        | some dns => { s with dns := dns, dnsComment := comment }
        | none => s

/-- `'%d.%d.%d.%d' % (a, b, c, d)`. -/
def quad (a b c d : Nat) : Bytes :=
  showNat a ++ 46 :: (showNat b ++ 46 :: (showNat c ++ 46 :: showNat d))

/-- The mask with a number of bits, `package/motioneye/ipctl.py:80-84`; `none` when a shift or
`xrange` raises an error, with the C integers of the boards. -/
def maskOf (cidr : Int) : Option Bytes :=
  if 32 < cidr ∨ 2 ^ 31 ≤ 32 - cidr then none
  else
    let bits := ((List.range 32).filter fun i : Nat ↦ 32 - cidr ≤ (i : Int)).foldl
      (fun bits i ↦ bits ||| 1 <<< i) 0
    some (quad ((bits &&& 0xff000000) >>> 24) ((bits &&& 0xff0000) >>> 16)
      ((bits &&& 0xff00) >>> 8) (bits &&& 0xff))

/-- What the getter makes of its variables, `package/motioneye/ipctl.py:71-98`. -/
def IpState.settings (s : IpState) : Option IpSettings :=
  let type := if s.ip = none ∨ s.ipComment then str "dhcp" else str "static"
  let ip := s.ip.getD (str "192.168.1.101")
  (toInt s.cidr).bind fun cidr ↦
    (maskOf cidr).map fun mask ↦ {
      ipConfigType := type
      ipConfigStaticAddr := ip
      ipConfigStaticMask := mask
      ipConfigStaticGw := if s.gwComment ∧ type = str "static" then none else some s.gw
      ipConfigStaticDns := if s.dnsComment ∧ type = str "static" then none else some s.dns }

/-- `_get_ip_settings`, `package/motioneye/ipctl.py:28-103`, for the content of `static_ip.conf` if
it exists. -/
def getIpSettings (staticIpConf : Option Bytes) : Option IpSettings :=
  ((readlines (staticIpConf.getD [])).foldl readIpLine
    ⟨none, false, str "24", str "192.168.1.1", false, str "8.8.8.8", false⟩).settings

/-! ### Addresses -/

/-- The dotted quad of an address. -/
def dotted (x : BitVec 32) : Bytes :=
  quad (x.extractLsb' 24 8).toNat (x.extractLsb' 16 8).toNat (x.extractLsb' 8 8).toNat
    (x.extractLsb' 0 8).toNat

/-- The mask with its first `n` bits set. -/
def netmask (n : Nat) : BitVec 32 := BitVec.allOnes 32 <<< (32 - n)

/-- The settings of a DHCP client or of a static address with a mask of `n` bits. -/
structure IsIpSettings (s : IpSettings) (n : Nat) : Prop where
  type : s.ipConfigType = str "dhcp" ∨ s.ipConfigType = str "static"
  addr : ∃ x, s.ipConfigStaticAddr = dotted x
  bits : n ≤ 32
  mask : s.ipConfigStaticMask = dotted (netmask n)
  gw : ∃ x, s.ipConfigStaticGw = some (dotted x)
  dns : ∃ x, s.ipConfigStaticDns = some (dotted x)

/-- A dotted quad is a plain word. -/
theorem isPlain_of_mem_dotted {x : BitVec 32} {b : UInt8} (hb : b ∈ dotted x) :
    isPlain b = true := by
  have hnumber : ∀ n, b ∈ showNat n → isPlain b = true :=
    fun n hmem ↦ isPlain_of_mem_showInt (n := .ofNat n) hmem
  simp only [dotted, quad, List.mem_append, List.mem_cons] at hb
  rcases hb with hb | rfl | hb | rfl | hb | rfl | hb
  · exact hnumber _ hb
  · rfl
  · exact hnumber _ hb
  · rfl
  · exact hnumber _ hb
  · rfl
  · exact hnumber _ hb

/-- The mask that is shown for a number of bits. -/
theorem maskOf_bits {n : Nat} (hn : n ≤ 32) : maskOf n = some (dotted (netmask n)) := by
  have hall : ∀ n : Nat, n < 33 → maskOf n = some (dotted (netmask n)) := by decide +kernel
  exact hall n (by omega)

/-- The number of bits that is written for a mask. -/
theorem cidrOf_netmask {n : Nat} (hn : n ≤ 32) :
    cidrOf (some (dotted (netmask n))) = some (showNat n) := by
  have hall : ∀ n : Nat, n < 33 → cidrOf (some (dotted (netmask n))) = some (showNat n) := by
    decide +kernel
  exact hall n (by omega)

/-! ### Lines that are read -/

/-- A text of plain words and slashes. -/
def IsText (s : Bytes) : Prop := ∀ b ∈ s, isPlain b = true ∨ b = 47

/-- A plain word is such a text. -/
theorem isText_of_isPlain {s : Bytes} (hs : ∀ b ∈ s, isPlain b = true) : IsText s :=
  fun b hb ↦ .inl (hs b hb)

/-- A text does not have a byte that is neither plain nor a slash. -/
theorem IsText.notMem {s : Bytes} (hs : IsText s) {b : UInt8} (hb : isPlain b = false)
    (hslash : b ≠ 47) : b ∉ s := by
  intro hmem
  rcases hs b hmem with hplain | heq
  · rw [hb] at hplain
    cases hplain
  · exact hslash heq

/-- A byte of a text is no space. -/
theorem IsText.isSpace {s : Bytes} (hs : IsText s) {b : UInt8} (hb : b ∈ s) :
    isSpace b = false := by
  rcases hs b hb with hplain | rfl
  · exact isSpace_of_isPlain hplain
  · rfl

/-- An address and a number of bits are a text. -/
theorem isText_append {ip cidr : Bytes} (hip : IsText ip)
    (hcidr : ∀ b ∈ cidr, isPlain b = true) : IsText (ip ++ 47 :: cidr) := by
  intro b hb
  rcases List.mem_append.mp hb with hb | hb
  · exact hip b hb
  · rcases List.mem_cons.mp hb with rfl | hb
    · exact .inr rfl
    · exact .inl (hcidr b hb)

variable {name value : Bytes}

/-- What stands in a line that is written. -/
theorem mem_quotedLine {b : UInt8} :
    b ∈ quotedLine name value ↔ b ∈ name ∨ b = 61 ∨ b = 34 ∨ b ∈ value := by
  simp only [quotedLine, List.mem_append, List.mem_cons, List.not_mem_nil, or_false]
  tauto

/-- The text between the quotes is matched. -/
theorem matchQuoted_quotedLine (name value : Bytes) :
    matchQuoted name (quotedLine name value) = some value := by
  have hstart : (name ++ [61, 34]).isPrefixOf (quotedLine name value) = true := by
    simp [quotedLine]
  have hdrop : (quotedLine name value).drop (name.length + 2) = value ++ [34] := by
    rw [quotedLine, ← List.drop_drop, List.drop_left]
    rfl
  rw [matchQuoted, if_pos hstart, hdrop]
  simp

/-- An address and a number of bits are matched. -/
theorem matchSlash_quotedLine {ip cidr : Bytes} (hcidr : 47 ∉ cidr) :
    matchSlash name (quotedLine name (ip ++ 47 :: cidr)) = some (ip, cidr) := by
  have hne : ∀ b ∈ cidr, decide (b ≠ 47) = true := by
    intro b hb
    simpa using fun heq : b = 47 ↦ hcidr (heq ▸ hb)
  have hstart : (ip ++ 47 :: cidr).rdropWhile (· ≠ 47) = ip ++ [47] := by
    rw [List.rdropWhile, List.reverse_append, List.reverse_cons, List.append_assoc,
      List.dropWhile_append_of_pos fun b hb ↦ hne b (List.mem_reverse.mp hb),
      List.singleton_append, List.dropWhile_cons_of_neg (by simp)]
    simp
  have hend : (ip ++ 47 :: cidr).rtakeWhile (· ≠ 47) = cidr := by
    rw [List.rtakeWhile, List.reverse_append, List.reverse_cons, List.append_assoc,
      List.takeWhile_append_of_pos fun b hb ↦ hne b (List.mem_reverse.mp hb),
      List.singleton_append, List.takeWhile_cons_of_neg (by simp)]
    simp
  rw [matchSlash, matchQuoted_quotedLine, Option.bind_some, if_pos (by simp), hstart, hend,
    List.dropLast_concat]

/-- A line that is written ends with a quote. -/
theorem getLast?_quotedLine (t name value : Bytes) :
    (t ++ quotedLine name value).getLast? = some 34 := by
  have hend : t ++ quotedLine name value = t ++ name ++ 61 :: 34 :: value ++ [34] := by
    simp [quotedLine]
  rw [hend, List.getLast?_concat]

/-- The text of a line that is written, in a comment or not. -/
theorem ipEntry_quotedLine (hname : IsText name) (hne : name ≠ []) (value : Bytes)
    (comment : Bool) :
    ipEntry ((if comment then str "#" else []) ++ quotedLine name value ++ [newline]) =
      (comment, quotedLine name value) := by
  obtain ⟨b, name, rfl⟩ := List.exists_cons_of_ne_nil hne
  have hb : isSpace b = false := hname.isSpace List.mem_cons_self
  have hhash : b ≠ 35 := by
    rintro rfl
    exact hname.notMem (by decide) (by decide) List.mem_cons_self
  have hstrip : strip ((if comment then str "#" else []) ++ quotedLine (b :: name) value) =
      (if comment then str "#" else []) ++ quotedLine (b :: name) value := by
    apply strip_eq_self
    · cases comment with
      | false => simpa [quotedLine] using hb
      | true => simp [str, isSpace]
    · rw [getLast?_quotedLine]
      simp [isSpace]
  rw [ipEntry, strip_append_newline, hstrip]
  cases comment with
  | false =>
    rw [if_neg (by simpa [quotedLine] using hhash)]
    rfl
  | true =>
    have hstart : (str "#" ++ quotedLine (b :: name) value).dropWhile (· = 35) =
        quotedLine (b :: name) value := by
      have hcons : str "#" ++ quotedLine (b :: name) value =
          35 :: b :: (name ++ 61 :: 34 :: (value ++ [34])) := rfl
      rw [hcons, List.dropWhile_cons_of_pos (by simp),
        List.dropWhile_cons_of_neg (by simpa using hhash)]
      rfl
    have hend : (quotedLine (b :: name) value).rdropWhile (· = 35) = quotedLine (b :: name) value := by
      rw [List.rdropWhile_eq_self_iff]
      intro hne
      have hquote := getLast?_quotedLine [] (b :: name) value
      rw [List.nil_append, List.getLast?_eq_some_getLast hne] at hquote
      rw [Option.some.inj hquote]
      decide
    have hhead : (str "#" ++ quotedLine (b :: name) value).head? = some 35 := rfl
    simp only [if_true]
    rw [if_pos hhead, stripByte, hstart, hend]

/-- What the lines of the setter set, one after the other. -/
theorem foldl_ipLines (s : IpState) (comment : Bool) {ip cidr gw dns : Bytes}
    (hcidr : 47 ∉ cidr) :
    ((ipLines comment ip cidr gw dns).map (· ++ [newline])).foldl readIpLine s =
      ⟨some ip, comment, cidr, gw, comment, dns, comment⟩ := by
  have hfirst := ipEntry_quotedLine (isText_of_isPlain (by decide : ∀ b ∈ str "static_ip", _))
    (by decide) (ip ++ 47 :: cidr) comment
  have hsecond := ipEntry_quotedLine (isText_of_isPlain (by decide : ∀ b ∈ str "static_gw", _))
    (by decide) gw comment
  have hthird := ipEntry_quotedLine (isText_of_isPlain (by decide : ∀ b ∈ str "static_dns", _))
    (by decide) dns comment
  have hne : ∀ name value : Bytes, quotedLine name value ≠ [] := by simp [quotedLine]
  have hslash : matchSlash (str "static_ip") (quotedLine (str "static_ip") (ip ++ 47 :: cidr)) =
      some (ip, cidr) := matchSlash_quotedLine hcidr
  have hgwSlash : ∀ v, matchSlash (str "static_ip") (quotedLine (str "static_gw") v) = none :=
    fun v ↦ rfl
  have hdnsSlash : ∀ v, matchSlash (str "static_ip") (quotedLine (str "static_dns") v) = none :=
    fun v ↦ rfl
  have hdnsGw : ∀ v, matchQuoted (str "static_gw") (quotedLine (str "static_dns") v) = none :=
    fun v ↦ rfl
  simp only [ipLines, List.map_cons, List.map_nil, List.foldl_cons, List.foldl_nil, readIpLine,
    hfirst, hsecond, hthird, hne, if_false, hslash, hgwSlash, hdnsSlash, hdnsGw,
    matchQuoted_quotedLine]

/-! ### The round trip -/

/-- A number is a plain word. -/
theorem isPlain_of_mem_showNat {n : Nat} {b : UInt8} (hb : b ∈ showNat n) : isPlain b = true :=
  isPlain_of_mem_showInt (n := .ofNat n) hb

/-- The file that is written for settings with a mask of `n` bits. -/
theorem setIpSettings_mask {s : IpSettings} {n : Nat} (hn : n ≤ 32)
    (hmask : s.ipConfigStaticMask = dotted (netmask n)) :
    setIpSettings s.dict = some (unlines (ipLines (s.ipConfigType = str "dhcp")
      s.ipConfigStaticAddr (showNat n) s.ipConfigStaticGw.format s.ipConfigStaticDns.format)) := by
  have hcidr : cidrOf (some s.ipConfigStaticMask) = some (showNat n) := by
    rw [hmask, cidrOf_netmask hn]
  simp only [setIpSettings, IpSettings.dict, IpDict.complete, Option.isSome_some, Bool.and_self,
    if_true, Option.getD_some, hcidr, Option.map_some, Option.some.injEq]
  rfl

/-- The file that is written when gateway and server are given. -/
theorem setIpSettings_dict {s : IpSettings} {n : Nat} {gw dns : Bytes} (hn : n ≤ 32)
    (hmask : s.ipConfigStaticMask = dotted (netmask n)) (hgw : s.ipConfigStaticGw = some gw)
    (hdns : s.ipConfigStaticDns = some dns) :
    setIpSettings s.dict = some (unlines (ipLines (s.ipConfigType = str "dhcp")
      s.ipConfigStaticAddr (showNat n) gw dns)) := by
  rw [setIpSettings_mask hn hmask, hgw, hdns]
  rfl

/-- The lines that are written have no terminators and no NULs of their own. -/
theorem clear_ipLines {comment : Bool} {ip cidr gw dns : Bytes} (hip : IsText ip)
    (hcidr : ∀ b ∈ cidr, isPlain b = true) (hgw : IsText gw) (hdns : IsText dns) :
    ∀ l ∈ ipLines comment ip cidr gw dns, newline ∉ l ∧ 0 ∉ l := by
  have hclear : ∀ b, isPlain b = false → b ≠ 47 → b ≠ 35 → b ≠ 61 → b ≠ 34 →
      ∀ l ∈ ipLines comment ip cidr gw dns, b ∉ l := by
    intro b hplain hslash hhash hequals hquote l hl
    obtain ⟨⟨name, value⟩, ha, rfl⟩ := List.mem_map.mp hl
    have hname : b ∉ name ∧ b ∉ value := by
      simp only [List.mem_cons, List.not_mem_nil, or_false, Prod.mk.injEq] at ha
      rcases ha with ⟨rfl, rfl⟩ | ⟨rfl, rfl⟩ | ⟨rfl, rfl⟩
      · refine ⟨notMem_of_isPlain (by decide) hplain, ?_⟩
        simpa using ⟨hip.notMem hplain hslash, hslash, notMem_of_isPlain hcidr hplain⟩
      · exact ⟨notMem_of_isPlain (by decide) hplain, hgw.notMem hplain hslash⟩
      · exact ⟨notMem_of_isPlain (by decide) hplain, hdns.notMem hplain hslash⟩
    have hcomment : b ∉ (if comment then str "#" else []) := by
      cases comment with
      | false => simp
      | true => simpa [str] using hhash
    rw [List.mem_append, mem_quotedLine]
    tauto
  exact fun l hl ↦ ⟨hclear newline (by decide) (by decide) (by decide) (by decide) (by decide) l hl,
    hclear 0 (by decide) (by decide) (by decide) (by decide) (by decide) l hl⟩

/-- What the setter writes is read back, also when it is a comment. -/
theorem getIpSettings_set {s : IpSettings} {n : Nat} (h : IsIpSettings s n) :
    ∃ content, setIpSettings s.dict = some content ∧ getIpSettings (some content) = some s := by
  obtain ⟨gw, hgw⟩ := h.gw
  obtain ⟨dns, hdns⟩ := h.dns
  obtain ⟨addr, haddr⟩ := h.addr
  refine ⟨_, setIpSettings_dict h.bits h.mask hgw hdns, ?_⟩
  have hquad : ∀ x, IsText (dotted x) := fun x ↦ isText_of_isPlain fun b ↦ isPlain_of_mem_dotted
  have hip : IsText s.ipConfigStaticAddr := haddr ▸ hquad addr
  have hcidr : ∀ b ∈ showNat n, isPlain b = true := fun b ↦ isPlain_of_mem_showNat
  have hread : toInt (showNat n) = some (n : Int) := toInt_showInt n
  rw [getIpSettings, Option.getD_some,
    readlines_unlines fun l hl ↦ (clear_ipLines hip hcidr (hquad gw) (hquad dns) l hl).1,
    foldl_ipLines _ _ (notMem_of_isPlain hcidr (by decide))]
  simp only [IpState.settings, hread, Option.bind_some, maskOf_bits h.bits, Option.map_some,
    Option.getD_some, Option.some.injEq]
  cases s with
  | mk type ip mask sgw sdns =>
    obtain rfl := h.mask
    obtain rfl := hgw
    obtain rfl := hdns
    rcases h.type with rfl | rfl
    · rfl
    · rfl

end MotionPie.Package.Motioneye.Ipctl
