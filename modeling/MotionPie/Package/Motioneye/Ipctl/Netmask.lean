import MotionPie.Base.Binary
import MotionPie.Package.Motioneye.Ipctl.Lines

/-!
# Addresses that the validators accept

The fields of a static address have one validator, `package/motioneye/ipctl.py:162`, which asks for
four numbers of up to three digits. `_set_ip_settings` pads the octets of the mask to eight bits but
does not cut them, so an octet above 255 makes the text of the bits longer than 32 and the written
prefix can become one that `_get_ip_settings` cannot read.
-/

namespace MotionPie.Package.Motioneye.Ipctl

open Base Watchctl

/-! ### The validator -/

/-- `[0-9][0-9]?[0-9]?`. -/
def isOctet (s : Bytes) : Bool := s ≠ [] && decide (s.length ≤ 3) && s.all isDigit

/-- `'^[0-9][0-9]?[0-9]?\.[0-9][0-9]?[0-9]?\.[0-9][0-9]?[0-9]?\.[0-9][0-9]?[0-9]?$'`. The pattern
leaves room for a terminator at the end. -/
def validate (s : Bytes) : Bool :=
  let s := if s.getLast? = some newline then s.dropLast else s
  decide ((s.splitOn 46).length = 4) && (s.splitOn 46).all isOctet

/-- The settings whose fields the validators accept. -/
structure Validated (s : IpSettings) : Prop where
  addr : validate s.ipConfigStaticAddr = true
  mask : validate s.ipConfigStaticMask = true
  gw : ∃ gw, s.ipConfigStaticGw = some gw ∧ validate gw = true
  dns : ∃ dns, s.ipConfigStaticDns = some dns ∧ validate dns = true

/-- After the settings have been saved, the prefix in the file is at most 32 and the getter does not
raise an error on the file. -/
def KeepsPage (s : IpSettings) : Prop :=
  ∃ gw dns content prefixLength, s.ipConfigStaticGw = some gw ∧ s.ipConfigStaticDns = some dns ∧
    setIpSettings s.dict = some content ∧
    content = unlines (ipLines (s.ipConfigType = str "dhcp") s.ipConfigStaticAddr
      (showNat prefixLength) gw dns) ∧
    prefixLength ≤ 32 ∧ (getIpSettings (some content)).isSome = true

/-! ### Octets -/

/-- The octets of a mask. -/
def octets (mask : Bytes) : List Nat := (mask.splitOn 46).map fun t ↦ ((toInt t).getD 0).toNat

/-- The bits that an octet has beyond eight. -/
def excess (octet : Nat) : Nat := if octet < 256 then 0 else if octet < 512 then 1 else 2

/-- The last octet ends with as many zero bits as the octets have bits in excess. -/
def Fits (mask : Bytes) : Prop := 2 ^ ((octets mask).map excess).sum ∣ (octets mask).getLastD 0

instance (mask : Bytes) : Decidable (Fits mask) := by
  unfold Fits
  infer_instance

/-- The bits of an octet as they are written. -/
def octetBits (n : Nat) : Bytes := zfill 8 (binDigits n)

variable {n : Nat}

/-- The bits of an octet are a numeral. -/
theorem isNumeral_octetBits (n : Nat) : IsNumeral (octetBits n) := by
  intro b hb
  rcases List.mem_append.mp hb with hb | hb
  · exact .inl (List.eq_of_mem_replicate hb)
  · exact isNumeral_binDigits n b hb

/-- The bits of an octet have its value. -/
theorem binValue_octetBits (n : Nat) : binValue (octetBits n) = n := by
  rw [octetBits, zfill, List.leftpad, binValue_replicate, binValue_binDigits]

/-- An octet has eight bits and those in excess. -/
theorem length_octetBits (hn : n < 1000) : (octetBits n).length = 8 + excess n := by
  have hlength : (octetBits n).length = max 8 (binDigits n).length := List.length_leftpad ..
  have height := length_binDigits_le_iff (n := n) (show 0 < 8 by decide)
  have hnine := length_binDigits_le_iff (n := n) (show 0 < 9 by decide)
  have hten := length_binDigits_le_iff (n := n) (show 0 < 10 by decide)
  rw [hlength, excess]
  split
  · omega
  · split <;> omega

/-- The bits of octets side by side: how many there are. -/
theorem length_flatMap_octetBits {ns : List Nat} (hns : ∀ n ∈ ns, n < 1000) :
    (ns.flatMap octetBits).length = 8 * ns.length + (ns.map excess).sum := by
  induction ns with
  | nil => rfl
  | cons n ns ih =>
    rw [List.forall_mem_cons] at hns
    rw [List.flatMap_cons, List.length_append, length_octetBits hns.1, ih hns.2, List.map_cons,
      List.sum_cons, List.length_cons]
    omega

/-- The prefix that is written for four octets is at most 32 if and only if they fit. -/
theorem length_prefix_le_iff {a b c d : Nat} (hlt : ∀ n ∈ [a, b, c, d], n < 1000) :
    (([a, b, c, d].flatMap octetBits).rdropWhile (· = 48)).length ≤ 32 ↔
      2 ^ ([a, b, c, d].map excess).sum ∣ d := by
  have hexcess : ∀ n, excess n ≤ 2 := by
    intro n
    unfold excess
    split
    · decide
    · split <;> decide
  have hsum : ([a, b, c, d].map excess).sum = excess a + excess b + excess c + excess d := by
    simp [Nat.add_assoc]
  have hsmall : ([a, b, c, d].map excess).sum ≤ 8 := by
    have ha := hexcess a
    have hb := hexcess b
    have hc := hexcess c
    have hd := hexcess d
    omega
  have hlength := length_flatMap_octetBits hlt
  have hnumeral : IsNumeral ([a, b, c, d].flatMap octetBits) := by
    intro b hb
    obtain ⟨n, -, hn⟩ := List.mem_flatMap.mp hb
    exact isNumeral_octetBits n b hn
  -- Only the last octet matters for the zeros at the end.
  have hvalue : binValue ([a, b, c, d].flatMap octetBits) =
      2 ^ (8 + excess d) * binValue ([a, b, c].flatMap octetBits) + d := by
    have hsplit : [a, b, c, d].flatMap octetBits =
        [a, b, c].flatMap octetBits ++ octetBits d := by simp
    rw [hsplit, binValue_append, binValue_octetBits, length_octetBits (hlt d (by simp))]
  have hdvd := pow_dvd_binValue_iff hnumeral (k := ([a, b, c, d].map excess).sum) (by omega)
  have hhigh : 2 ^ ([a, b, c, d].map excess).sum ∣
      2 ^ (8 + excess d) * binValue ([a, b, c].flatMap octetBits) :=
    (Nat.pow_dvd_pow 2 (by omega)).mul_right _
  rw [hvalue, Nat.dvd_add_right hhigh, hlength] at hdvd
  rw [hdvd]
  simp only [List.length_cons, List.length_nil] at hdvd ⊢
  omega

/-! ### Accepted texts -/

/-- A text of digits is read as a number. -/
theorem toInt_digits {t : Bytes} (hne : t ≠ []) (ht : ∀ b ∈ t, isDigit b = true) :
    ∃ n : Nat, n < 10 ^ t.length ∧ toInt t = some (n : Int) := by
  have hbound : ∀ (s : Bytes) (m k : Nat), (∀ b ∈ s, isDigit b = true) → m < 10 ^ k →
      s.foldl (fun n b ↦ 10 * n + (b.toNat - 48)) m < 10 ^ (k + s.length) := by
    intro s
    induction s with
    | nil => exact fun m k _ hm ↦ hm
    | cons b s ih =>
      intro m k hs hm
      rw [List.forall_mem_cons] at hs
      have hb : b.toNat ≤ 57 := by
        have hdigit := hs.1
        simp only [isDigit, Bool.and_eq_true, decide_eq_true_eq, UInt8.le_iff_toNat_le] at hdigit
        exact hdigit.2
      have hstep : 10 * m + (b.toNat - 48) < 10 ^ (k + 1) := by
        rw [pow_succ]
        omega
      have hrest := ih _ (k + 1) hs.2 hstep
      rwa [Nat.add_assoc, Nat.add_comm 1] at hrest
  obtain ⟨b, s, rfl⟩ := List.exists_cons_of_ne_nil hne
  have hb := ht b List.mem_cons_self
  have hminus : b ≠ 45 := fun h ↦ by simp [h, isDigit] at hb
  have hplus : b ≠ 43 := fun h ↦ by simp [h, isDigit] at hb
  have hall : (b :: s).all (fun b ↦ 48 ≤ b && b ≤ 57) = true := List.all_eq_true.mpr ht
  refine ⟨(b :: s).foldl (fun n b ↦ 10 * n + (b.toNat - 48)) 0, ?_, ?_⟩
  · have hlt := hbound (b :: s) 0 0 ht (by decide)
    rwa [Nat.zero_add] at hlt
  rw [toInt, strip_of_solid fun b hb ↦ isSpace_of_isDigit (ht b hb)]
  split
  · next h => exact absurd (List.cons.inj h).1 hminus
  · next h => exact absurd (List.cons.inj h).1 hplus
  · have hparse : parseDigits (b :: s) =
        some ((b :: s).foldl (fun n b ↦ 10 * n + (b.toNat - 48)) 0) := by
      rw [parseDigits, hall]
      rfl
    rw [hparse]
    rfl

/-- An accepted text: four octets, and a terminator or not. -/
structure IsQuad (s a b c d e : Bytes) : Prop where
  text : s = a ++ 46 :: (b ++ 46 :: (c ++ 46 :: (d ++ e)))
  digits : ∀ t ∈ [a, b, c, d], t ≠ [] ∧ t.length ≤ 3 ∧ ∀ x ∈ t, isDigit x = true
  terminator : e = [] ∨ e = [newline]

/-- The texts that the validator accepts. -/
theorem exists_isQuad {s : Bytes} (hs : validate s = true) : ∃ a b c d e, IsQuad s a b c d e := by
  simp only [validate, Bool.and_eq_true, decide_eq_true_eq] at hs
  obtain ⟨hlength, hall⟩ := hs
  have hbody : ∃ body e, s = body ++ e ∧ (e = [] ∨ e = [newline]) ∧
      (if s.getLast? = some newline then s.dropLast else s) = body := by
    split
    · next hlast =>
      refine ⟨s.dropLast, [newline], ?_, .inr rfl, rfl⟩
      exact (List.dropLast_append_getLast? newline hlast).symm
    · exact ⟨s, [], (List.append_nil s).symm, .inl rfl, rfl⟩
  obtain ⟨body, e, hs, he, heq⟩ := hbody
  rw [heq] at hlength hall
  obtain ⟨a, b, c, d, hsplit⟩ := List.length_eq_four.mp hlength
  refine ⟨a, b, c, d, e, ?_, ?_, he⟩
  · have hjoin : [46].intercalate (body.splitOn 46) = body := List.intercalate_splitOn 46
    rw [hsplit] at hjoin
    rw [hs, ← hjoin]
    simp [List.intercalate]
  · intro t ht
    have hoctet := List.all_eq_true.mp hall t (hsplit ▸ ht)
    simp only [isOctet, Bool.and_eq_true, decide_eq_true_eq, List.all_eq_true] at hoctet
    exact ⟨hoctet.1.1, hoctet.1.2, hoctet.2⟩

variable {s a b c d e : Bytes}

/-- The bytes of an accepted text. -/
theorem IsQuad.mem (h : IsQuad s a b c d e) {x : UInt8} (hx : x ∈ s) :
    isDigit x = true ∨ x = 46 ∨ x = newline := by
  have hdigit : ∀ t ∈ [a, b, c, d], x ∈ t → isDigit x = true :=
    fun t ht hx ↦ (h.digits t ht).2.2 x hx
  have hend : x ∈ e → x = newline := by
    intro hx
    rcases h.terminator with rfl | rfl
    · cases hx
    · exact List.mem_singleton.mp hx
  simp only [h.text, List.mem_append, List.mem_cons] at hx
  rcases hx with hx | rfl | hx | rfl | hx | rfl | hx | hx
  · exact .inl (hdigit a (by simp) hx)
  · exact .inr (.inl rfl)
  · exact .inl (hdigit b (by simp) hx)
  · exact .inr (.inl rfl)
  · exact .inl (hdigit c (by simp) hx)
  · exact .inr (.inl rfl)
  · exact .inl (hdigit d (by simp) hx)
  · exact .inr (.inr (hend hx))

/-- A terminator stands at the end of an accepted text only. -/
theorem IsQuad.line (h : IsQuad s a b c d e) : ∃ q, newline ∉ q ∧ 47 ∉ q ∧ s = q ++ e := by
  refine ⟨a ++ 46 :: (b ++ 46 :: (c ++ 46 :: d)), ?_, ?_, by rw [h.text]; simp⟩
  all_goals
    have hdigit : ∀ t ∈ [a, b, c, d], ∀ x : UInt8, isDigit x = false → x ∉ t := by
      intro t ht x hx hmem
      rw [(h.digits t ht).2.2 x hmem] at hx
      cases hx
    simp only [List.mem_append, List.mem_cons, not_or]
    exact ⟨hdigit a (by simp) _ rfl, by decide, hdigit b (by simp) _ rfl, by decide,
      hdigit c (by simp) _ rfl, by decide, hdigit d (by simp) _ rfl⟩

/-- An accepted text has no slash. -/
theorem slash_notMem (h : validate s = true) : 47 ∉ s := by
  obtain ⟨a, b, c, d, e, hquad⟩ := exists_isQuad h
  intro hmem
  rcases hquad.mem hmem with hdigit | hdot | hend
  · exact absurd hdigit (by decide)
  · exact absurd hdot (by decide)
  · exact absurd hend (by decide)

/-- The parts of an accepted text. -/
theorem IsQuad.splitOn (h : IsQuad s a b c d e) : s.splitOn 46 = [a, b, c, d ++ e] := by
  have hdot : ∀ t ∈ [a, b, c, d], 46 ∉ t := by
    intro t ht hmem
    exact absurd ((h.digits t ht).2.2 46 hmem) (by decide)
  have hlast : 46 ∉ d ++ e := by
    rw [List.mem_append, not_or]
    refine ⟨hdot d (by simp), ?_⟩
    rcases h.terminator with rfl | rfl <;> decide
  rw [h.text, List.splitOn_append_cons_self_of_not_mem (hdot a (by simp)),
    List.splitOn_append_cons_self_of_not_mem (hdot b (by simp)),
    List.splitOn_append_cons_self_of_not_mem (hdot c (by simp)), List.splitOn_eq_singleton hlast]

/-- The octets of an accepted text are below 1000, and the setter writes the length of their bits
without the zeros at the end. -/
theorem IsQuad.cidrOf (h : IsQuad s a b c d e) :
    ∃ i j k l, octets s = [i, j, k, l] ∧ (∀ n ∈ [i, j, k, l], n < 1000) ∧
      cidrOf (some s) =
        some (showNat (([i, j, k, l].flatMap octetBits).rdropWhile (· = 48)).length) := by
  have hnumber : ∀ t ∈ [a, b, c, d], ∃ n : Nat, n < 1000 ∧ toInt t = some (n : Int) := by
    intro t ht
    obtain ⟨hne, hlength, hdigits⟩ := h.digits t ht
    obtain ⟨n, hn, hint⟩ := toInt_digits hne hdigits
    exact ⟨n, hn.trans_le (Nat.pow_le_pow_right (by decide) hlength), hint⟩
  obtain ⟨i, hi, hai⟩ := hnumber a (by simp)
  obtain ⟨j, hj, hbj⟩ := hnumber b (by simp)
  obtain ⟨k, hk, hck⟩ := hnumber c (by simp)
  obtain ⟨l, hl, hdl⟩ := hnumber d (by simp)
  have hend : toInt (d ++ e) = some (l : Int) := by
    rcases h.terminator with rfl | rfl
    · rw [List.append_nil, hdl]
    · rw [toInt, strip_append_newline, ← toInt, hdl]
  have hne : s ≠ [] := by
    rw [h.text]
    simp
  refine ⟨i, j, k, l, ?_, by simp [hi, hj, hk, hl], ?_⟩
  · rw [octets, h.splitOn]
    simp [hai, hbj, hck, hend]
  · have hbits : ∀ n : Nat, zfill 8 ((bin n).drop 2) = octetBits n := fun n ↦ rfl
    rw [Ipctl.cidrOf, Option.getD_some, if_neg hne, h.splitOn]
    simp [hai, hbj, hck, hend, hbits]

/-! ### Reading the file -/

/-- A prefix of up to 32 bits can be read. -/
theorem isSome_settings {st : IpState} {n : Nat} (hn : n ≤ 32) (hcidr : st.cidr = showNat n) :
    st.settings.isSome = true := by
  have hread : toInt (showNat n) = some (n : Int) := toInt_showInt n
  rw [IpState.settings, hcidr, hread, Option.bind_some, maskOf_bits hn]
  rfl

/-- The address finds no match in a line without a slash. -/
theorem matchIp_of_notMem {line : Bytes} (h : 47 ∉ line) : matchIp (ipEntry line).2 = none := by
  rw [Option.eq_none_iff_forall_ne_some]
  rintro ⟨ip, cidr⟩ hmatch
  have hslash : 47 ∈ (ipEntry line).2 := by
    rw [(eq_of_matchSlash hmatch).1, mem_quotedLine]
    simp
  exact h (mem_of_mem_ipEntry hslash)

/-- A line is a part of the file. -/
theorem mem_of_mem_line {content line : Bytes} (hline : line ∈ readlines content) {x : UInt8}
    (hx : x ∈ line) : x ∈ content := by
  rw [← flatten_readlines content]
  exact List.mem_flatten_of_mem hline hx

/-- A comment sign has no terminator and no slash. -/
theorem notMem_hash (comment : Bool) : newline ∉ (if comment then str "#" else []) ∧
    47 ∉ (if comment then str "#" else []) := by
  cases comment <;> decide

/-- An address in one line is matched with the number of bits that is written behind it. -/
theorem matchIp_whole {q line : Bytes} {n : Nat} (hq : newline ∉ q) (comment : Bool)
    (hline : line ∈ readlines ((if comment then str "#" else []) ++
      quotedLine (str "static_ip") (q ++ 47 :: showNat n) ++ [newline]))
    {v : Bytes × Bytes} (hv : matchIp (ipEntry line).2 = some v) : v.2 = showNat n := by
  have hname : newline ∉ str "static_ip" := by decide
  have hclear : newline ∉ (if comment then str "#" else []) ++
      quotedLine (str "static_ip") (q ++ 47 :: showNat n) := by
    rw [List.mem_append, mem_quotedLine]
    simp only [List.mem_append, List.mem_cons, not_or]
    exact ⟨(notMem_hash comment).1, hname, by decide, by decide, hq, by decide,
      notMem_showNat rfl n⟩
  rw [readlines_append_newline hclear] at hline
  obtain rfl := List.mem_singleton.mp hline
  rw [ipEntry_quotedLine (isText_of_isPlain (by decide)) (by decide), matchIp,
    matchSlash_quotedLine (notMem_showNat rfl n)] at hv
  obtain rfl := Option.some.inj hv
  rfl

/-- A terminator leaves the start of the address on one line and its end on the next, and neither is
matched. -/
theorem matchIp_broken {q line : Bytes} {n : Nat} (hq : newline ∉ q) (hslash : 47 ∉ q)
    (comment : Bool)
    (hline : line ∈ readlines ((if comment then str "#" else []) ++
      quotedLine (str "static_ip") (q ++ [newline] ++ 47 :: showNat n) ++ [newline])) :
    matchIp (ipEntry line).2 = none := by
  have hname : newline ∉ str "static_ip" ∧ 47 ∉ str "static_ip" := by decide
  have hsplit : (if comment then str "#" else []) ++
      quotedLine (str "static_ip") (q ++ [newline] ++ 47 :: showNat n) ++ [newline] =
        ((if comment then str "#" else []) ++ str "static_ip" ++ 61 :: 34 :: q) ++
          newline :: (47 :: (showNat n ++ [34]) ++ [newline]) := by
    simp [quotedLine]
  have hstart : newline ∉ (if comment then str "#" else []) ++ str "static_ip" ++
      61 :: 34 :: q := by
    simp only [List.mem_append, List.mem_cons, not_or]
    exact ⟨⟨(notMem_hash comment).1, hname.1⟩, by decide, by decide, hq⟩
  have hend : newline ∉ 47 :: (showNat n ++ [34]) := by
    simp only [List.mem_cons, List.mem_append, List.not_mem_nil, or_false, not_or]
    exact ⟨by decide, notMem_showNat rfl n, by decide⟩
  rw [hsplit, readlines_append_newline hstart, readlines_append_newline hend] at hline
  rcases List.mem_cons.mp hline with rfl | hline
  · apply matchIp_of_notMem
    simp only [List.mem_append, List.mem_cons, List.not_mem_nil, or_false, not_or]
    exact ⟨⟨⟨(notMem_hash comment).2, hname.2⟩, by decide, by decide, hslash⟩, by decide⟩
  · obtain rfl := List.mem_singleton.mp hline
    apply Option.eq_none_iff_forall_ne_some.mpr
    intro v hv
    have hmem : 115 ∈ (ipEntry (47 :: (showNat n ++ [34]) ++ [newline])).2 := by
      rw [(eq_of_matchSlash (show matchSlash _ _ = some (v.1, v.2) from hv)).1, mem_quotedLine]
      exact .inl (by decide)
    have habsent : (115 : UInt8) ∉ 47 :: (showNat n ++ [34]) ++ [newline] := by
      simp only [List.mem_cons, List.mem_append, List.not_mem_nil, or_false, not_or]
      exact ⟨⟨by decide, notMem_showNat rfl n, by decide⟩, by decide⟩
    exact habsent (mem_of_mem_ipEntry hmem)

/-- The address finds a match with the number of bits that is written behind it, or none when a
terminator ends the accepted text. -/
theorem matchIp_addressLine {addr line : Bytes} {n : Nat} (h : validate addr = true)
    (comment : Bool)
    (hline : line ∈ readlines ((if comment then str "#" else []) ++
      quotedLine (str "static_ip") (addr ++ 47 :: showNat n) ++ [newline]))
    {v : Bytes × Bytes} (hv : matchIp (ipEntry line).2 = some v) : v.2 = showNat n := by
  obtain ⟨a, b, c, d, e, hquad⟩ := exists_isQuad h
  obtain ⟨q, hq, hslash, rfl⟩ := hquad.line
  rcases hquad.terminator with rfl | rfl
  · rw [List.append_nil] at hline
    exact matchIp_whole hq comment hline hv
  · rw [matchIp_broken hq hslash comment hline] at hv
    cases hv

/-- The getter can read what has been written with a prefix of up to 32 bits. -/
theorem isSome_getIpSettings {addr gw dns : Bytes} {n : Nat} (haddr : validate addr = true)
    (hgw : validate gw = true) (hdns : validate dns = true) (hn : n ≤ 32) (comment : Bool) :
    (getIpSettings (some (unlines (ipLines comment addr (showNat n) gw dns)))).isSome = true := by
  -- There is no slash behind the line of the address.
  have hrest : ∃ rest, 47 ∉ rest ∧ unlines (ipLines comment addr (showNat n) gw dns) =
      ((if comment then str "#" else []) ++
        quotedLine (str "static_ip") (addr ++ 47 :: showNat n)) ++ newline :: rest := by
    refine ⟨unlines (((if comment then str "#" else []) ++ quotedLine (str "static_gw") gw) ::
      [(if comment then str "#" else []) ++ quotedLine (str "static_dns") dns]), ?_, ?_⟩
    · have hcomment := (notMem_hash comment).2
      simp only [unlines, List.flatMap_cons, List.flatMap_nil, List.mem_append, mem_quotedLine,
        List.mem_singleton, List.not_mem_nil, or_false, not_or]
      exact ⟨⟨⟨hcomment, by decide, by decide, by decide, slash_notMem hgw⟩, by decide⟩,
        ⟨hcomment, by decide, by decide, by decide, slash_notMem hdns⟩, by decide⟩
    · simp [unlines, ipLines]
  obtain ⟨rest, hrest, hcontent⟩ := hrest
  rw [hcontent, getIpSettings, Option.getD_some, foldl_readIpLine]
  cases hlast : (found matchIp (readlines ((if comment then str "#" else []) ++
      quotedLine (str "static_ip") (addr ++ 47 :: showNat n) ++ newline :: rest))).getLast? with
  | none => exact isSome_settings (n := 24) (by decide) rfl
  | some v =>
    refine isSome_settings hn ?_
    obtain ⟨line, hline, hmatch⟩ := List.mem_filterMap.mp (List.mem_of_getLast? hlast)
    obtain ⟨w, hw, rfl⟩ := Option.map_eq_some_iff.mp hmatch
    rw [readlines_append] at hline
    rcases List.mem_append.mp hline with hline | hline
    · exact matchIp_addressLine haddr comment hline hw
    · rw [matchIp_of_notMem fun hmem ↦ hrest (mem_of_mem_line hline hmem)] at hw
      cases hw

/-! ### The page -/

/-- The prefix of a mask that the validator accepts is written, and is at most 32 if and only if the
octets fit. -/
theorem exists_prefix {mask : Bytes} (h : validate mask = true) :
    ∃ n, cidrOf (some mask) = some (showNat n) ∧ (n ≤ 32 ↔ Fits mask) := by
  obtain ⟨a, b, c, d, e, hquad⟩ := exists_isQuad h
  obtain ⟨i, j, k, l, hoctets, hlt, hcidr⟩ := hquad.cidrOf
  refine ⟨_, hcidr, ?_⟩
  rw [length_prefix_le_iff hlt, Fits, hoctets]
  rfl

/-- The prefix is known from the file. -/
theorem prefix_inj {comment : Bool} {ip gw dns : Bytes} {n m : Nat}
    (h : unlines (ipLines comment ip (showNat n) gw dns) =
      unlines (ipLines comment ip (showNat m) gw dns)) : n = m := by
  have htext : ∀ cidr, unlines (ipLines comment ip cidr gw dns) =
      ((if comment then str "#" else []) ++ str "static_ip" ++ 61 :: 34 :: (ip ++ [47])) ++ (cidr ++
        (34 :: newline :: unlines ((ipLines comment ip [] gw dns).tail))) := by
    intro cidr
    simp [unlines, ipLines, quotedLine]
  rw [htext, htext] at h
  have hnumber := List.append_cancel_right (List.append_cancel_left h)
  have hparse := congrArg parseDigits hnumber
  rw [parseDigits_showNat, parseDigits_showNat] at hparse
  exact Option.some.inj hparse

/-- Accepted settings keep the page readable if and only if the octets of their mask fit. -/
theorem keepsPage_iff (s : IpSettings) (h : Validated s) :
    KeepsPage s ↔ Fits s.ipConfigStaticMask := by
  obtain ⟨gw, hgw, hvalidGw⟩ := h.gw
  obtain ⟨dns, hdns, hvalidDns⟩ := h.dns
  obtain ⟨n, hcidr, hfits⟩ := exists_prefix h.mask
  have hset : setIpSettings s.dict = some (unlines (ipLines (s.ipConfigType = str "dhcp")
      s.ipConfigStaticAddr (showNat n) gw dns)) := by
    simp only [setIpSettings, IpSettings.dict, IpDict.complete, Option.isSome_some, Bool.and_self,
      if_true, Option.getD_some, hcidr, Option.map_some, hgw, hdns, Option.some.injEq]
    rfl
  rw [← hfits]
  constructor
  · rintro ⟨gw', dns', content, m, hgw', hdns', hset', rfl, hm, -⟩
    obtain rfl := Option.some.inj (hgw.symm.trans hgw')
    obtain rfl := Option.some.inj (hdns.symm.trans hdns')
    obtain rfl := prefix_inj (Option.some.inj (hset.symm.trans hset'))
    exact hm
  · intro hn
    exact ⟨gw, dns, _, n, hgw, hdns, hset, rfl, hn,
      isSome_getIpSettings h.addr hvalidGw hvalidDns hn _⟩

/-- An octet with nine bits is kept when the last one is even. -/
theorem keepsPage_iff_wide :
    KeepsPage ⟨str "static", str "192.168.1.101", str "256.0.0.128", some (str "192.168.1.1"),
        some (str "8.8.8.8")⟩ ↔ Fits (str "256.0.0.128") :=
  keepsPage_iff _ ⟨by decide, by decide, ⟨_, rfl, by decide⟩, ⟨_, rfl, by decide⟩⟩

/-- A mask that the validator accepts and that has 34 bits. -/
theorem keepsPage_not_wide :
    Validated ⟨str "static", str "192.168.1.101", str "255.255.255.999", some (str "192.168.1.1"),
        some (str "8.8.8.8")⟩ ∧
      ¬ KeepsPage ⟨str "static", str "192.168.1.101", str "255.255.255.999",
        some (str "192.168.1.1"), some (str "8.8.8.8")⟩ := by
  refine ⟨⟨by decide, by decide, ⟨_, rfl, by decide⟩, ⟨_, rfl, by decide⟩⟩, ?_⟩
  rintro ⟨gw, dns, content, n, hgw, hdns, hset, -, -, hget⟩
  have hread : (setIpSettings (IpSettings.dict ⟨str "static", str "192.168.1.101",
      str "255.255.255.999", some (str "192.168.1.1"), some (str "8.8.8.8")⟩)).bind
        (fun c ↦ getIpSettings (some c)) = none := by decide
  rw [hset, Option.bind_some] at hread
  rw [hread] at hget
  cases hget

end MotionPie.Package.Motioneye.Ipctl
