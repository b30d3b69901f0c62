import Mathlib.Tactic.Tauto
import MotionPie.Base.Run
import MotionPie.Support.MkUsers.Text

/-!
# When mkusers leaves other names alone

A record is deleted when the pattern of a name finds it, which may be the record of another
name; a new record is written behind whatever a file ends with; and the script for a member
list looks at every line of a file. The conditions say when none of that touches another name.
-/

namespace MotionPie.Support.MkUsers.Text

open Base Shell

/-! ### Records -/

/-- The records of the other names. -/
def others (n c : Bytes) : List Bytes := (lines c).filter (nameOf · ≠ n)

/-- The pattern of the name finds its own records only. -/
def Only (n c : Bytes) : Prop := ∀ l ∈ lines c, begins n l = true → nameOf l = n

/-- The last line has a terminator, unless it is deleted. -/
def Ends (n c : Bytes) : Prop :=
  ∀ l ∈ (readlines c).getLast?, l.getLast? = some newline ∨ begins n l = true

section Records

variable {n c s : Bytes}

/-- The text that is left. -/
theorem deleteName_unlines_append {ls : List Bytes} (hls : ∀ l ∈ ls, newline ∉ l) {r : Bytes}
    (hr : newline ∉ r) : deleteName n (unlines ls ++ r) =
      unlines (ls.filter (!begins n ·)) ++ if begins n r then [] else r :=
  sed_delete_unlines_append (begins n) hls hr

/-- The lines that are left. -/
theorem lines_deleteName : lines (deleteName n c) = (lines c).filter (!begins n ·) :=
  lines_sed_delete (begins n) c

-- A filter of what is left keeps all that it kept before exactly when it kept nothing of the rest.
private theorem filter_filter_eq_iff {α : Type} {p q : α → Bool} {ls : List α} :
    (ls.filter q).filter p = ls.filter p ↔ ∀ l ∈ ls, p l = true → q l = true := by
  rw [List.filter_comm, List.filter_eq_self]
  simp only [List.mem_filter, and_imp]

private theorem others_iff {ls : List Bytes} :
    (ls.filter (!begins n ·)).filter (nameOf · ≠ n) = ls.filter (nameOf · ≠ n) ↔
      ∀ l ∈ ls, begins n l = true → nameOf l = n := by
  rw [filter_filter_eq_iff]
  refine forall₂_congr fun l _ ↦ ?_
  by_cases hn : nameOf l = n <;> by_cases hl : begins n l = true <;> simp [hn, hl]

/-- A deletion keeps the other records exactly when the pattern finds none of them. -/
theorem others_deleteName : others n (deleteName n c) = others n c ↔ Only n c := by
  rw [others, lines_deleteName]
  exact others_iff

private theorem ends_unlines_append {ls : List Bytes} (hls : ∀ l ∈ ls, newline ∉ l)
    (hs : newline ∉ s) : Ends n (unlines ls ++ s) ↔ s = [] ∨ begins n s = true := by
  rw [Ends, readlines_unlines_append hls hs]
  by_cases hnil : s = []
  · refine iff_of_true (fun l hl ↦ .inl ?_) (.inl hnil)
    simp only [rest, hnil, if_true, List.append_nil] at hl
    obtain ⟨k, -, rfl⟩ := List.mem_map.mp (List.mem_of_getLast? hl)
    simp
  · have hlast : s.getLast? ≠ some newline := fun h ↦ hs (List.mem_of_getLast? h)
    simp [rest, hnil, hlast]

private theorem lines_append_record {ls : List Bytes} (hls : ∀ l ∈ ls, newline ∉ l)
    {r : Bytes} (hr : newline ∉ r) (hs : newline ∉ s) :
    lines (unlines ls ++ r ++ (s ++ [newline])) = ls ++ [r ++ s] := by
  have hunlines : unlines ls ++ r ++ (s ++ [newline]) = unlines (ls ++ [r ++ s]) := by
    simp [unlines]
  rw [hunlines]
  refine lines_unlines fun l hl ↦ ?_
  rcases List.mem_append.mp hl with hl | hl
  · exact hls l hl
  · rw [List.mem_singleton.mp hl, List.mem_append, not_or]
    exact ⟨hr, hs⟩

-- A record behind a line that has no terminator is a record of some other name.
private theorem nameOf_glued {r : Bytes} (hcolon : 58 ∉ n) (hr : r ≠ [])
    (hkept : begins n r = false) : nameOf (r ++ n ++ 58 :: s) ≠ n := by
  by_cases h : 58 ∈ r
  · obtain ⟨t, ht⟩ := eq_nameOf_append h
    intro hname
    have hsame : nameOf (r ++ n ++ 58 :: s) = nameOf r := by
      obtain ⟨x, y, rfl, hx⟩ := List.eq_append_cons_of_mem h
      rw [List.append_assoc, List.append_assoc, List.cons_append, nameOf_append hx,
        nameOf_append hx]
    rw [hsame] at hname
    rw [begins_of_nameOf h hname] at hkept
    cases hkept
  · rw [nameOf_append (by simp [h, hcolon])]
    intro hself
    exact hr (List.append_left_eq_self.mp hself)

/-- A record that replaces those of the name keeps the other records exactly when the pattern
finds none of them and the file ends with a line. -/
theorem others_record (hn : n ≠ []) (hcolon : 58 ∉ n) (hnewline : newline ∉ n)
    (hs : newline ∉ s) :
    others n (deleteName n c ++ (n ++ 58 :: s ++ [newline])) = others n c ↔
      Only n c ∧ Ends n c := by
  obtain ⟨ls, r, hls, hr, rfl⟩ := exists_unlines c
  have hrecord : newline ∉ n ++ 58 :: s := by
    simp only [List.mem_append, List.mem_cons, not_or]
    exact ⟨hnewline, by decide, hs⟩
  have hleft : ∀ l ∈ ls.filter (!begins n ·), newline ∉ l :=
    fun l hl ↦ hls l (List.mem_of_mem_filter hl)
  rw [ends_unlines_append hls hr, Only, lines_unlines_append hls hr,
    deleteName_unlines_append hls hr]
  by_cases hgone : r = [] ∨ begins n r = true
  · -- the record is a line of its own
    have hrest : (if begins n r then [] else r) = [] := by
      rcases hgone with rfl | hgone
      · simp
      · simp [hgone]
    have hgone' : (rest r).filter (!begins n ·) = [] := by
      rcases hgone with rfl | hgone
      · rfl
      · unfold rest
        split <;> simp [hgone]
    have hown : others n (unlines (ls.filter (!begins n ·)) ++ [] ++ (n ++ 58 :: s ++ [newline])) =
        (ls.filter (!begins n ·)).filter (nameOf · ≠ n) := by
      rw [others, lines_append_record hleft (by simp) hrecord, List.filter_append]
      simp [nameOf_append hcolon]
    have hlines : ls.filter (!begins n ·) = (ls ++ rest r).filter (!begins n ·) := by
      rw [List.filter_append, hgone', List.append_nil]
    rw [hrest, hown, others, lines_unlines_append hls hr, hlines, others_iff]
    simp [hgone]
  · -- the record is glued to the last line
    rw [not_or] at hgone
    refine iff_of_false (fun hsame ↦ ?_) fun h ↦ h.2.elim hgone.1 hgone.2
    have hkept : begins n r = false := by simpa using hgone.2
    have hrest : (if begins n r then [] else r) = r := by simp [hkept]
    rw [hrest, others, others, lines_append_record hleft hr hrecord,
      lines_unlines_append hls hr, List.filter_append, List.filter_append] at hsame
    have hglued : [r ++ (n ++ 58 :: s)].filter (nameOf · ≠ n) = [r ++ (n ++ 58 :: s)] := by
      have hname := nameOf_glued (s := s) hcolon hgone.1 hkept
      rw [List.append_assoc] at hname
      simp [hname]
    rw [hglued] at hsame
    by_cases hname : nameOf r = n
    · -- the last line was the bare name, and the new line is no line of before
      have hr' : r = n := by
        have hnone : 58 ∉ r := by
          intro h
          rw [begins_of_nameOf h hname] at hkept
          cases hkept
        rw [← hname, nameOf, List.takeWhile_eq_self_iff.mpr (forall_ne hnone)]
      have hnew : begins n (n ++ (n ++ 58 :: s)) = false := by
        obtain ⟨b, m, rfl⟩ := List.exists_cons_of_ne_nil hn
        simp only [List.mem_cons, not_or] at hcolon
        simp [begins, Ne.symm hcolon.1]
      have hbare : (rest r).filter (nameOf · ≠ n) = [] := by simp [rest, hgone.1, hname]
      rw [hbare, List.append_nil] at hsame
      have hcount := congrArg (List.count (r ++ (n ++ 58 :: s))) hsame
      rw [hr', List.filter_comm, List.count_append, List.count_filter (by simp [hnew])] at hcount
      simp at hcount
    · have hlast := congrArg List.getLast? hsame
      simp [rest, hgone.1, hname] at hlast

end Records

/-! ### Groups -/

/-- A call for the group `n` changes no record of another group, and no record of a user. -/
def GroupIsolated (n : Bytes) (t t' : Target) : Prop :=
  t'.passwd = t.passwd ∧ t'.shadow = t.shadow ∧ others n t'.group = others n t.group ∧
    t'.gshadow.map (others n) = t.gshadow.map (others n)

/-- The call ends for want of a gid, or the pattern of the name finds its own records only, in
files that end with a line. -/
def GroupSafe (awk : Awk) (n : Bytes) (gid : Int) (t : Target) : Prop :=
  (chooseGid awk t n gid).isOk = true →
    (Only n t.group ∧ Ends n t.group) ∧ ∀ c ∈ t.gshadow, Only n c ∧ Ends n c

section Groups

variable {awk : Awk} {env : Env} {t : Target} {n : PlainName}

private theorem newline_notMem_showInt (i : Int) : newline ∉ showInt i := by
  intro h
  have hspace := isSpace_of_mem_showInt h
  cases hspace

private theorem others_line {c s line : Bytes} (hline : line = n.val ++ 58 :: s ++ [newline])
    (hs : newline ∉ s) :
    others n (deleteName n c ++ line) = others n c ↔ Only n c ∧ Ends n c := by
  subst hline
  exact others_record n.property.1 (n.notMem rfl) (n.notMem rfl) hs

private theorem others_groupLine {c : Bytes} (gid : Int) :
    others n (deleteName n c ++ groupLine n gid) = others n c ↔ Only n c ∧ Ends n c := by
  refine others_line (s := str "x:" ++ showInt gid ++ str ":") ?_ ?_
  · simp [groupLine, str, newline]
  · simp only [List.mem_append, not_or]
    exact ⟨⟨by decide, newline_notMem_showInt gid⟩, by decide⟩

private theorem others_gshadowLine {c : Bytes} :
    others n (deleteName n c ++ gshadowLine n) = others n c ↔ Only n c ∧ Ends n c := by
  refine others_line (s := str "*::") ?_ (by decide)
  simp [gshadowLine, str, newline]

/-- A call for a group keeps the other records exactly under the condition. -/
theorem groupIsolated_iff {gid : Int} :
    GroupIsolated n t (after (addOneGroup awk n gid t)) ↔ GroupSafe awk n gid t := by
  unfold GroupSafe addOneGroup
  cases hgid : chooseGid awk t n gid with
  | error e =>
    refine iff_of_true ?_ (by simp [Except.isOk, Except.toBool])
    exact ⟨rfl, rfl, rfl, rfl⟩
  | ok gid' =>
    have hafter : after ((Except.ok gid').mapError (·, t) >>= fun gid ↦ pure { t with
        group := deleteName n t.group ++ groupLine n gid
        gshadow := t.gshadow.map fun c ↦ deleteName n c ++ gshadowLine n }) =
        { t with
          group := deleteName n t.group ++ groupLine n gid'
          gshadow := t.gshadow.map fun c ↦ deleteName n c ++ gshadowLine n } := rfl
    rw [hafter, GroupIsolated]
    simp only [Except.isOk, Except.toBool, true_and, forall_const, others_groupLine]
    refine and_congr_right fun _ ↦ ?_
    cases t.gshadow with
    | none => simp
    | some c => simp [others_gshadowLine]

end Groups

/-! ### The records of users -/

/-- A call for the user `n` changes no record of another user. -/
def RecordsIsolated (n : Bytes) (t t' : Target) : Prop :=
  others n t'.passwd = others n t.passwd ∧ others n t'.shadow = others n t.shadow

section Users

variable (awk : Awk) (env : Env) (n : PlainName) (r : Row) (t : Target)

/-- The call gets as far as line 304. -/
def removes : Bool :=
  (checkUserValidity awk t n r.uid r.group r.gid).isOk && (chooseUid awk t n r.uid).isOk

/-- The call gets as far as line 335. -/
def writesPasswd : Bool :=
  removes awk n r t && (expandHome r.home).isOk && (expandPasswd env r.passwd).isOk

/-- The call gets as far as line 339. -/
def writesShadow : Bool := writesPasswd awk env n r t && (getGid awk t r.group).length ≤ 1

/-- The pattern of the name finds its own records only, in files that end with a line when a
record is written. -/
def RecordsSafe : Prop :=
  (removes awk n r t = true → Only n t.passwd ∧ Only n t.shadow) ∧
    (writesPasswd awk env n r t = true → Ends n t.passwd) ∧
      (writesShadow awk env n r t = true → Ends n t.shadow)

/-- The new line of `/etc/passwd`, once its fields are known. -/
def newPasswd (uid : Int) (home : Bytes) : Bytes :=
  passwdLine n uid ((getGid awk t r.group).headD 0) r.comment home (expandShell r.shell)

/-- The files after a call, for each of the lines that it gets as far as. -/
inductive Ran (t' : Target) : Prop
  | checked (hno : removes awk n r t = false) (h : t' = t)
  | removed (hyes : removes awk n r t = true) (hno : writesPasswd awk env n r t = false)
      (h : t' = removeUser n t)
  | wrotePasswd (hyes : writesPasswd awk env n r t = true)
      (hno : writesShadow awk env n r t = false) (uid : Int) (home : Bytes) (huid : chooseUid awk t n r.uid = .ok uid)
      (hhome : expandHome r.home = .ok home)
      (h : t' = { removeUser n t with
        passwd := deleteName n t.passwd ++ newPasswd awk n r t uid home })
  | wroteShadow (hyes : writesShadow awk env n r t = true) (uid : Int) (home passwd : Bytes)
      (huid : chooseUid awk t n r.uid = .ok uid) (hhome : expandHome r.home = .ok home)
      (hpasswd : expandPasswd env r.passwd = .ok passwd) (printed : Bytes)
      (h : t' = { r.additional.foldl (fun t g ↦ addUserToGroup n g t) { removeUser n t with
        passwd := deleteName n t.passwd ++ newPasswd awk n r t uid home
        shadow := deleteName n t.shadow ++ shadowLine n passwd } with fakeroot := printed })

variable {awk env n r t}

/-- A call that gets far has got less far before. -/
theorem removes_of_writesPasswd (h : writesPasswd awk env n r t = true) :
    removes awk n r t = true := by
  simp only [writesPasswd, Bool.and_eq_true] at h
  exact h.1.1

/-- A call that gets far has got less far before. -/
theorem writesPasswd_of_writesShadow (h : writesShadow awk env n r t = true) :
    writesPasswd awk env n r t = true := by
  simp only [writesShadow, Bool.and_eq_true] at h
  exact h.1

private theorem newline_expandHome {home : Field} {home' : Bytes}
    (h : expandHome home = .ok home') : newline ∉ home' := by
  unfold expandHome at h
  split at h
  · obtain rfl := Except.ok.inj h
    decide
  · split at h
    · cases h
    · split at h
      · obtain rfl := Except.ok.inj h
        exact home.property
      · cases h

private theorem newline_expandPasswd {passwd : Field} {passwd' : Bytes}
    (h : expandPasswd env passwd = .ok passwd') : newline ∉ passwd' := by
  unfold expandPasswd at h
  split at h
  · obtain rfl := Except.ok.inj h
    simp
  · split at h
    · split at h
      · next enc _ =>
        obtain rfl := Except.ok.inj h
        simp only [List.mem_append, not_or]
        exact ⟨by decide, enc.property⟩
      · cases h
    · split at h
      · split at h
        · next enc _ =>
          obtain rfl := Except.ok.inj h
          exact enc.property
        · cases h
      · obtain rfl := Except.ok.inj h
        exact passwd.property

/-- What a call has done when it ends, with or without an error. -/
theorem ran (awk : Awk) (env : Env) (n : PlainName) (r : Row) (t : Target) :
    Ran awk env n r t (after (addOneUser awk env n r t)) := by
  unfold addOneUser
  cases hcheck : checkUserValidity awk t n r.uid r.group r.gid with
  | error e => exact .checked (by simp [removes, hcheck, Except.isOk, Except.toBool]) rfl
  | ok u =>
    cases huid : chooseUid awk t n r.uid with
    | error e => exact .checked (by simp [removes, huid, Except.isOk, Except.toBool]) rfl
    | ok uid =>
      have hremoves : removes awk n r t = true := by
        simp [removes, hcheck, huid, Except.isOk, Except.toBool]
      cases hhome : expandHome r.home with
      | error e =>
        exact .removed hremoves (by simp [writesPasswd, hhome, Except.isOk, Except.toBool]) rfl
      | ok home =>
        cases hpasswd : expandPasswd env r.passwd with
        | error e =>
          exact .removed hremoves (by simp [writesPasswd, hpasswd, Except.isOk, Except.toBool]) rfl
        | ok passwd =>
          have hwrites : writesPasswd awk env n r t = true := by
            simp [writesPasswd, hremoves, hhome, hpasswd, Except.isOk, Except.toBool]
          change Ran awk env n r t (after (writeUser env n r uid
            (getGid awk (removeUser n t) r.group) home passwd (removeUser n t)))
          have hgids : getGid awk (removeUser n t) r.group = getGid awk t r.group := rfl
          unfold writeUser
          rw [hgids]
          simp only
          split
          · next hmany =>
            exact .wrotePasswd hwrites (by simp [writesShadow, hmany]) uid home huid hhome rfl
          · next hone =>
            have hshadow : writesShadow awk env n r t = true := by
              simp [writesShadow, hwrites, Nat.le_of_not_lt hone]
            split
            · exact .wroteShadow hshadow uid home passwd huid hhome hpasswd _ rfl
            · split
              · exact .wroteShadow hshadow uid home passwd huid hhome hpasswd _ rfl
              · exact .wroteShadow hshadow uid home passwd huid hhome hpasswd _ rfl

private theorem newline_expandShell (shell : Field) : newline ∉ expandShell shell := by
  unfold expandShell
  split
  · decide
  · exact shell.property

/-- The new line of `/etc/passwd` is a record of the user. -/
theorem newPasswd_eq {uid : Int} {home : Bytes} (hhome : expandHome r.home = .ok home) :
    ∃ s, newPasswd awk n r t uid home = n.val ++ 58 :: s ++ [newline] ∧ newline ∉ s := by
  refine ⟨str "x:" ++ showInt uid ++ str ":" ++ showInt ((getGid awk t r.group).headD 0) ++
    str ":" ++ r.comment ++ str ":" ++ home ++ str ":" ++ expandShell r.shell, ?_, ?_⟩
  · simp [newPasswd, passwdLine, str, newline]
  · have hcolon : newline ∉ str ":" := by decide
    simp only [List.mem_append, not_or]
    exact ⟨⟨⟨⟨⟨⟨⟨⟨⟨by decide, newline_notMem_showInt uid⟩, hcolon⟩, newline_notMem_showInt _⟩,
      hcolon⟩, r.comment.property⟩, hcolon⟩, newline_expandHome hhome⟩, hcolon⟩,
      newline_expandShell r.shell⟩

/-- The new line of `/etc/shadow` is a record of the user. -/
theorem shadowLine_eq {passwd : Bytes} (hpasswd : expandPasswd env r.passwd = .ok passwd) :
    ∃ s, shadowLine n passwd = n.val ++ 58 :: s ++ [newline] ∧ newline ∉ s := by
  refine ⟨passwd ++ str ":::::::", ?_, ?_⟩
  · simp [shadowLine, str, newline]
  · simp only [List.mem_append, not_or]
    exact ⟨newline_expandPasswd hpasswd, by decide⟩

private theorem others_newPasswd {c home : Bytes} {uid : Int}
    (hhome : expandHome r.home = .ok home) :
    others n (deleteName n c ++ newPasswd awk n r t uid home) = others n c ↔
      Only n c ∧ Ends n c := by
  obtain ⟨s, hline, hs⟩ := newPasswd_eq hhome
  exact others_line hline hs

private theorem others_shadowLine {c passwd : Bytes}
    (hpasswd : expandPasswd env r.passwd = .ok passwd) :
    others n (deleteName n c ++ shadowLine n passwd) = others n c ↔ Only n c ∧ Ends n c := by
  obtain ⟨s, hline, hs⟩ := shadowLine_eq (n := n) hpasswd
  exact others_line hline hs

/-- Additional groups are a matter of the group files. -/
theorem foldl_addUserToGroup (n : Bytes) (gs : List Bytes) (t : Target) :
    gs.foldl (fun t g ↦ addUserToGroup n g t) t = { t with
      group := gs.foldl (fun c g ↦ editFile n g c) t.group
      gshadow := t.gshadow.map fun c ↦ gs.foldl (fun c g ↦ editFile n g c) c } := by
  induction gs generalizing t with
  | nil =>
    rcases t with ⟨passwd, shadow, group, gshadow, fakeroot⟩
    cases gshadow <;> rfl
  | cons g gs ih =>
    rw [List.foldl_cons, ih]
    cases hc : t.gshadow <;> simp [addUserToGroup, hc]

/-- A call for a user keeps the records of the others exactly under the condition. -/
theorem recordsIsolated_iff :
    RecordsIsolated n t (after (addOneUser awk env n r t)) ↔ RecordsSafe awk env n r t := by
  have hpasswd : writesPasswd awk env n r t = true → removes awk n r t = true :=
    removes_of_writesPasswd
  have hshadow : writesShadow awk env n r t = true → writesPasswd awk env n r t = true :=
    writesPasswd_of_writesShadow
  unfold RecordsIsolated RecordsSafe
  cases ran awk env n r t with
  | checked hno h =>
    have hno' : writesPasswd awk env n r t = false := by simpa [hno] using hpasswd
    have hno'' : writesShadow awk env n r t = false := by simpa [hno'] using hshadow
    simp [h, hno, hno', hno'']
  | removed hyes hno h =>
    have hno' : writesShadow awk env n r t = false := by simpa [hno] using hshadow
    simp [h, hyes, hno, hno', removeUser, others_deleteName]
  | wrotePasswd hyes hno uid home huid hhome h =>
    simp only [h, removeUser, others_newPasswd hhome, others_deleteName, hpasswd hyes, hyes,
      hno, forall_const, Bool.false_eq_true, false_imp_iff]
    tauto
  | wroteShadow hyes uid home passwd huid hhome hpass printed h =>
    simp only [h, foldl_addUserToGroup, others_newPasswd hhome, others_shadowLine hpass,
      hpasswd (hshadow hyes), hshadow hyes, hyes, forall_const]
    tauto

end Users

end MotionPie.Support.MkUsers.Text
