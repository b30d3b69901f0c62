import MotionPie.Support.MkUsers.MemberLines

/-!
# What a failing add_one_user leaves

The records of the user are removed before the home is looked at and before mkpasswd runs, and
new ones are there before mkdir runs. So a failing call has changed the files, unless there was
nothing to remove, or the call has written what it had removed.
-/

namespace MotionPie.Support.MkUsers.Text

open Base Shell

/-- The files with records are the same. -/
def SameFiles (t t' : Target) : Prop :=
  t'.passwd = t.passwd ∧ t'.shadow = t.shadow ∧ t'.group = t.group ∧ t'.gshadow = t.gshadow

/-- The pattern of the name finds no line. -/
def NoRecord (n c : Bytes) : Prop := ∀ l ∈ lines c, begins n l = false

/-- The file ends with the line, and the pattern of the name finds no other one. -/
def EndsWith (n line c : Bytes) : Prop :=
  ∃ ls, (∀ l ∈ ls, newline ∉ l ∧ begins n l = false) ∧ c = unlines ls ++ line

section Files

variable {n c s : Bytes}

/-- A deletion changes nothing exactly when the pattern finds no line. -/
theorem deleteName_eq_self : deleteName n c = c ↔ NoRecord n c := by
  constructor
  · intro h l hl
    rw [← h, lines_deleteName, List.mem_filter] at hl
    simpa using hl.2
  · intro h
    obtain ⟨ls, r, hls, hr, rfl⟩ := exists_unlines c
    rw [NoRecord, lines_unlines_append hls hr, List.forall_mem_append] at h
    have hkept : ls.filter (!begins n ·) = ls :=
      List.filter_eq_self.mpr fun l hl ↦ by simp [h.1 l hl]
    have hrest : (if begins n r then [] else r) = r := by
      by_cases hnil : r = []
      · simp [hnil]
      · have hr' := h.2 r (by simp [rest, hnil])
        simp [hr']
    rw [deleteName_unlines_append hls hr, hkept, hrest]

/-- A record that replaces those of the name changes nothing exactly when it was the last line
and the only record of the name. -/
theorem deleteName_append_eq_self (hn : newline ∉ n) (hs : newline ∉ s) :
    deleteName n c ++ (n ++ 58 :: s ++ [newline]) = c ↔
      EndsWith n (n ++ 58 :: s ++ [newline]) c := by
  have hbegins : begins n (n ++ 58 :: s) = true := by simp [begins, fits_self]
  have hrecord : newline ∉ n ++ 58 :: s := by
    simp only [List.mem_append, List.mem_cons, not_or]
    exact ⟨hn, by decide, hs⟩
  have hunlines : ∀ ls : List Bytes, unlines ls ++ (n ++ 58 :: s ++ [newline]) =
      unlines (ls ++ [n ++ 58 :: s]) := fun ls ↦ by simp [unlines]
  constructor
  · intro h
    obtain ⟨ls, r, hls, hr, rfl⟩ := exists_unlines c
    have hlast : (unlines ls ++ r).getLast? = some newline := by
      rw [← h, ← List.append_assoc, List.getLast?_concat]
    have hnil : r = [] := by
      by_contra hne
      rw [List.getLast?_append_of_ne_nil _ hne] at hlast
      exact hr (List.mem_of_getLast? hlast)
    subst hnil
    have hleft : ∀ l ∈ ls.filter (!begins n ·), newline ∉ l ∧ begins n l = false := by
      intro l hl
      rw [List.mem_filter] at hl
      exact ⟨hls l hl.1, by simpa using hl.2⟩
    refine ⟨ls.filter (!begins n ·), hleft, ?_⟩
    rw [deleteName_unlines_append hls hr] at h
    rw [← h]
    simp
  · rintro ⟨ls, hls, rfl⟩
    have hnil : newline ∉ ([] : Bytes) := by simp
    have hall : ∀ l ∈ ls ++ [n ++ 58 :: s], newline ∉ l := by
      rw [List.forall_mem_append, List.forall_mem_singleton]
      exact ⟨fun l hl ↦ (hls l hl).1, hrecord⟩
    have hdelete := deleteName_unlines_append (n := n) hall hnil
    rw [List.append_nil] at hdelete
    have hkept : ls.filter (!begins n ·) = ls :=
      List.filter_eq_self.mpr fun l hl ↦ by simp [(hls l hl).2]
    rw [hunlines, hdelete, List.filter_append, hkept]
    simp [hbegins, unlines]

end Files

section Atomic

variable (awk : Awk) (env : Env) (n : PlainName) (r : Row) (t : Target)

/-- The user's only record in `/etc/passwd` is the last line, and as the call writes it. -/
def PasswdSame : Prop :=
  ∀ uid home, chooseUid awk t n r.uid = .ok uid → expandHome r.home = .ok home →
    EndsWith n (newPasswd awk n r t uid home) t.passwd

/-- The user's only record in `/etc/shadow` is the last line, and as the call writes it. -/
def ShadowSame : Prop :=
  ∀ passwd, expandPasswd env r.passwd = .ok passwd → EndsWith n (shadowLine n passwd) t.shadow

/-- What a call that gets as far as line 304 removes was not there, or is what the call writes:
the user's last record, and group files with which nothing is to be done. -/
def Harmless : Prop :=
  removes awk n r t = true →
    if writesShadow awk env n r t then
      PasswdSame awk n r t ∧ ShadowSame env n r t ∧
        ∀ c ∈ t.group :: t.gshadow.toList, r.additional.foldl (fun c g ↦ editFile n g c) c = c
    else if writesPasswd awk env n r t then PasswdSame awk n r t ∧ NoRecord n t.shadow
    else NoRecord n t.passwd ∧ NoRecord n t.shadow

variable {awk env n r t}

private theorem passwdSame_iff {uid : Int} {home : Bytes}
    (huid : chooseUid awk t n r.uid = .ok uid) (hhome : expandHome r.home = .ok home) :
    PasswdSame awk n r t ↔ deleteName n t.passwd ++ newPasswd awk n r t uid home = t.passwd := by
  obtain ⟨s, hline, hs⟩ := newPasswd_eq hhome
  simp only [PasswdSame, huid, hhome, Except.ok.injEq]
  rw [hline, deleteName_append_eq_self (n.notMem rfl) hs, ← hline]
  constructor
  · exact fun h ↦ h uid home rfl rfl
  · rintro h uid' home' rfl rfl
    exact h

private theorem shadowSame_iff {passwd : Bytes} (hpasswd : expandPasswd env r.passwd = .ok passwd) :
    ShadowSame env n r t ↔ deleteName n t.shadow ++ shadowLine n passwd = t.shadow := by
  obtain ⟨s, hline, hs⟩ := shadowLine_eq hpasswd
  simp only [ShadowSame, hpasswd, Except.ok.injEq]
  rw [hline, deleteName_append_eq_self (n.notMem rfl) hs, ← hline]
  constructor
  · exact fun h ↦ h passwd rfl
  · rintro h passwd' rfl
    exact h

/-- A call that fails leaves the files as they were exactly if it is harmless. -/
theorem sameFiles_iff {t' : Target} {message : Bytes}
    (h : addOneUser awk env n r t = .error (message, t')) :
    SameFiles t t' ↔ Harmless awk env n r t := by
  have hran : Ran awk env n r t t' := by
    have hafter := ran awk env n r t
    rwa [h] at hafter
  unfold Harmless SameFiles
  cases hran with
  | checked hno ht' => simp [ht', hno]
  | removed hyes hno ht' =>
    have hno' : writesShadow awk env n r t = false := by simp [writesShadow, hno]
    simp [ht', hyes, hno, hno', removeUser, deleteName_eq_self]
  | wrotePasswd hyes hno uid home huid hhome ht' =>
    have hremoves : removes awk n r t = true := removes_of_writesPasswd hyes
    simp [ht', hyes, hno, hremoves, removeUser, deleteName_eq_self, passwdSame_iff huid hhome]
  | wroteShadow hyes uid home passwd huid hhome hpasswd printed ht' =>
    have hremoves : removes awk n r t = true :=
      removes_of_writesPasswd (writesPasswd_of_writesShadow hyes)
    have hgshadow : t.gshadow.map (fun c ↦ r.additional.foldl (fun c g ↦ editFile n g c) c) =
        t.gshadow ↔
          ∀ c ∈ t.gshadow.toList, r.additional.foldl (fun c g ↦ editFile n g c) c = c := by
      cases t.gshadow <;> simp
    rw [List.forall_mem_cons, ← hgshadow, passwdSame_iff huid hhome, shadowSame_iff hpasswd]
    simp only [ht', foldl_addUserToGroup, removeUser, hremoves, hyes, forall_const, if_true]

end Atomic

/-- A user with its records. -/
def svcFiles : Target where
  passwd := str "svc:x:1000:1000:service:/:/bin/false\n"
  shadow := str "svc:*:::::::\n"
  group := str "svc:x:1000:\n"
  gshadow := none
  fakeroot := []

/-- A row with a home that is no absolute path. -/
def relativeRow : Row :=
  { svcRow with group := ⟨str "svc", by decide⟩, groups := [], home := ⟨str "srv", by decide⟩ }

/-- The call fails, and the records of the user are gone. -/
theorem relativeRow_not_atomic : ∃ message t',
    addOneUser plainAwk plainEnv ⟨str "svc", by decide⟩ relativeRow svcFiles =
        .error (message, t') ∧ ¬ SameFiles svcFiles t' :=
  ⟨_, _, rfl, fun h ↦ absurd h.1 (by decide +kernel)⟩

/-- The user `root` is refused before anything is removed. -/
theorem sameFiles_iff_root : ∃ message t',
    addOneUser plainAwk plainEnv ⟨str "root", by decide⟩ relativeRow svcFiles =
        .error (message, t') ∧ SameFiles svcFiles t' :=
  ⟨_, _, rfl, (sameFiles_iff (show addOneUser plainAwk plainEnv ⟨str "root", by decide⟩ relativeRow
    svcFiles = _ from rfl)).mpr fun h ↦ absurd h (by decide +kernel)⟩

end MotionPie.Support.MkUsers.Text
