import MotionPie.Base.Scan
import MotionPie.Package.Motioneye.Ipctl

/-!
# The lines of static_ip.conf

Each of the three patterns of `_get_ip_settings` goes by its last match: the getter's variables are
read off the matches, whatever else the file has in it. A line that the setter has written matches
its pattern with any value that has no terminator.
-/

namespace MotionPie.Package.Motioneye.Ipctl

open Base Watchctl

universe u

/-- The matches of a pattern in the lines of a file: what the groups are, and whether the line is a
comment. -/
def found {α : Type u} (m : Bytes → Option α) (lines : List Bytes) : List (Bool × α) :=
  lines.filterMap fun l ↦ (m (ipEntry l).2).map fun v ↦ ((ipEntry l).1, v)

/-- The last match of a pattern in a file. -/
def lastMatch {α : Type u} (m : Bytes → Option α) (staticIpConf : Option Bytes) :
    Option (Bool × α) := (found m (readlines (staticIpConf.getD []))).getLast?

/-- The pattern of `static_ip`. -/
def matchIp : Bytes → Option (Bytes × Bytes) := matchSlash (str "static_ip")

/-- The pattern of `static_gw`. -/
def matchGw : Bytes → Option Bytes := matchQuoted (str "static_gw")

/-- The pattern of `static_dns`. -/
def matchDns : Bytes → Option Bytes := matchQuoted (str "static_dns")

/-! ### Matches -/

variable {name line t : Bytes}

/-- A byte of the text of a line is a byte of the line. -/
theorem mem_of_mem_ipEntry {x : UInt8} (hx : x ∈ (ipEntry line).2) : x ∈ line := by
  have hsub : ∀ s : Bytes, x ∈ stripByte 35 s → x ∈ s := fun s hx ↦
    (List.dropWhile_suffix _).subset ((List.rdropWhile_prefix _ _).subset hx)
  simp only [ipEntry] at hx
  split at hx
  · exact mem_of_mem_strip (hsub _ hx)
  · exact mem_of_mem_strip hx

/-- A match is the text between the quotes. -/
theorem eq_of_matchQuoted (h : matchQuoted name line = some t) : line = quotedLine name t := by
  simp only [matchQuoted] at h
  split at h
  · next hstart =>
    split at h
    · next hend =>
      obtain ⟨rest, rfl⟩ := List.isPrefixOf_iff_prefix.mp hstart
      have hdrop : (name ++ [61, 34] ++ rest).drop (name.length + 2) = rest := by
        rw [List.append_assoc, ← List.drop_drop, List.drop_left]
        rfl
      rw [hdrop] at h hend
      obtain rfl := Option.some.inj h
      have hrest := List.dropLast_append_getLast? 34 hend
      rw [quotedLine, hrest]
      simp
    · cases h
  · cases h

/-- A match of the address splits at its last slash. -/
theorem eq_of_matchSlash {ip cidr : Bytes} (h : matchSlash name line = some (ip, cidr)) :
    line = quotedLine name (ip ++ 47 :: cidr) ∧ 47 ∉ cidr := by
  obtain ⟨t, ht, hsplit⟩ := Option.bind_eq_some_iff.mp h
  split at hsplit
  · next hslash =>
    obtain ⟨rfl, rfl⟩ := Prod.mk.inj (Option.some.inj hsplit)
    have hwhole : t.rdropWhile (· ≠ 47) ++ t.rtakeWhile (· ≠ 47) = t :=
      List.rdropWhile_append_rtakeWhile
    have hne : t.rdropWhile (· ≠ 47) ≠ [] := by
      rw [ne_eq, List.rdropWhile_eq_nil_iff]
      intro hall
      simpa using hall 47 hslash
    have hlast : (t.rdropWhile (· ≠ 47)).getLast hne = 47 := by
      simpa using List.rdropWhile_last_not (· ≠ 47) t hne
    have hconcat := List.dropLast_concat_getLast hne
    rw [hlast] at hconcat
    constructor
    · rw [eq_of_matchQuoted ht, ← List.singleton_append, ← List.append_assoc, hconcat, hwhole]
    · intro hmem
      simpa using List.mem_rtakeWhile_imp hmem
  · cases hsplit

/-- The setter's lines are matched by one pattern each. -/
theorem matchQuoted_of_ne {other : Bytes} (hname : 61 ∉ name) (hother : 61 ∉ other)
    (hne : name ≠ other) (t : Bytes) : matchQuoted other (quotedLine name t) = none := by
  rw [Option.eq_none_iff_forall_ne_some]
  intro u hu
  have heq := eq_of_matchQuoted hu
  rw [quotedLine, quotedLine] at heq
  have htake := congrArg (List.takeWhile (· ≠ 61)) heq
  rw [List.takeWhile_append_of_pos (forall_ne hname),
    List.takeWhile_append_of_pos (forall_ne hother),
    List.takeWhile_cons_of_neg (by simp), List.takeWhile_cons_of_neg (by simp),
    List.append_nil, List.append_nil] at htake
  exact hne htake

/-! ### The variables of the getter -/

/-- What a line does to the variables. -/
theorem readIpLine_eq (st : IpState) (line : Bytes) :
    readIpLine st line = {
      ip := (matchIp (ipEntry line).2).elim st.ip fun v ↦ some v.1
      ipComment := (matchIp (ipEntry line).2).elim st.ipComment fun _ ↦ (ipEntry line).1
      cidr := (matchIp (ipEntry line).2).elim st.cidr Prod.snd
      gw := (matchGw (ipEntry line).2).getD st.gw
      gwComment := (matchGw (ipEntry line).2).elim st.gwComment fun _ ↦ (ipEntry line).1
      dns := (matchDns (ipEntry line).2).getD st.dns
      dnsComment := (matchDns (ipEntry line).2).elim st.dnsComment fun _ ↦ (ipEntry line).1 } := by
  rw [readIpLine]
  obtain ⟨comment, t⟩ := ipEntry line
  simp only
  split
  · next hnil =>
    subst hnil
    rfl
  · split
    · next ip cidr hip =>
      obtain ⟨rfl, -⟩ := eq_of_matchSlash hip
      rw [matchIp, matchGw, matchDns, hip, matchQuoted_of_ne (by decide) (by decide) (by decide),
        matchQuoted_of_ne (by decide) (by decide) (by decide)]
      rfl
    · next hip =>
      split
      · next gw hgw =>
        obtain rfl := eq_of_matchQuoted hgw
        rw [matchIp, matchGw, matchDns, hip, hgw,
          matchQuoted_of_ne (by decide) (by decide) (by decide)]
        rfl
      · next hgw =>
        split
        · next dns hdns =>
          rw [matchIp, matchGw, matchDns, hip, hgw, hdns]
          rfl
        · next hdns =>
          rw [matchIp, matchGw, matchDns, hip, hgw, hdns]
          rfl

/-- The variables are those of the last matches. -/
theorem foldl_readIpLine (st : IpState) (lines : List Bytes) :
    lines.foldl readIpLine st = {
      ip := (found matchIp lines).getLast?.elim st.ip fun e ↦ some e.2.1
      ipComment := (found matchIp lines).getLast?.elim st.ipComment Prod.fst
      cidr := (found matchIp lines).getLast?.elim st.cidr fun e ↦ e.2.2
      gw := (found matchGw lines).getLast?.elim st.gw Prod.snd
      gwComment := (found matchGw lines).getLast?.elim st.gwComment Prod.fst
      dns := (found matchDns lines).getLast?.elim st.dns Prod.snd
      dnsComment := (found matchDns lines).getLast?.elim st.dnsComment Prod.fst } := by
  induction lines using List.reverseRecOn with
  | nil => rfl
  | append_singleton lines line ih =>
    have hlast : ∀ {α : Type} (m : Bytes → Option α),
        (found m (lines ++ [line])).getLast? =
          ((m (ipEntry line).2).map fun v ↦ ((ipEntry line).1, v)).or
            (found m lines).getLast? := by
      intro α m
      rw [found, List.filterMap_append]
      cases hm : m (ipEntry line).2 with
      | none => simp [hm, found]
      | some v => simp [hm]
    rw [List.foldl_append, ih, List.foldl_cons, List.foldl_nil, readIpLine_eq, hlast, hlast, hlast]
    cases matchIp (ipEntry line).2 <;> cases matchGw (ipEntry line).2 <;>
      cases matchDns (ipEntry line).2 <;> rfl

end MotionPie.Package.Motioneye.Ipctl
