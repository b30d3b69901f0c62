import MotionPie.Shell.Escapes

/-!
# The administrator password

`S11datapart` gives the password in `motion.conf` to root and admin, `S91smb` gives it to Samba.
Both scripts write it twice through `echo -e`, so escapes in it are replaced, and `S91smb` takes
only its first word.
-/

namespace MotionPie.Board.Common

open Base Shell

/-- A line that `grep admin_password` passes on. -/
def mentions (line : Bytes) : Bool := contains (str "admin_password") line

/-- The line for a password. -/
def passwordLine (p : Bytes) : Bytes := str "# @admin_password " ++ p

/-- `cat /data/etc/motion.conf | grep admin_password | cut -d ' ' -f 3-`,
`board/common/overlay/etc/init.d/S11datapart:65`. -/
def S11datapart.password (motionConf : Bytes) : Bytes :=
  substitute (cut (fieldsFrom 32 3) (grep mentions motionConf))

/-- `echo -en "$password\n$password\n"`, what `passwd` reads for root and for admin,
`board/common/overlay/etc/init.d/S11datapart:75-76`. -/
def S11datapart.passwdInput (e : Encoding) (motionConf : Bytes) : Bytes :=
  echoEn e (twice (S11datapart.password motionConf))

/-- `cat /data/etc/motion.conf | grep admin_password | cut -d ' ' -f 3`,
`board/common/overlay/etc/init.d/S91smb:11`. -/
def S91smb.password (motionConf : Bytes) : Bytes :=
  substitute (cut (field 32 3) (grep mentions motionConf))

/-- `echo -e "$password\n$password\n"`, what `smbpasswd` reads for admin,
`board/common/overlay/etc/init.d/S91smb:13`. -/
def S91smb.smbpasswdInput (e : Encoding) (motionConf : Bytes) : Bytes :=
  echoE e (twice (S91smb.password motionConf))

/-- `motion.conf` has a line for the password and no other line that mentions it. -/
structure Stored (motionConf p : Bytes) : Prop where
  oneLine : newline ∉ p
  line : ∃ before after, lines motionConf = before ++ passwordLine p :: after ∧
    ∀ l ∈ before ++ after, mentions l = false

/-! ### The variables -/

variable {e : Encoding} {motionConf p : Bytes}

/-- One line passes `grep`. -/
theorem Stored.grep_eq (h : Stored motionConf p) :
    grep mentions motionConf = unlines [passwordLine p] := by
  obtain ⟨before, after, hlines, hothers⟩ := h.line
  have hnone : ∀ ls : List Bytes, (∀ l ∈ ls, l ∈ before ++ after) → ls.filter mentions = [] := by
    intro ls hls
    rw [List.filter_eq_nil_iff]
    intro l hl
    simp [hothers l (hls l hl)]
  have hline : mentions (passwordLine p) = true := by
    rw [mentions, contains, List.any_eq_true]
    refine ⟨str "admin_password " ++ p, (List.mem_tails _ _).mpr ⟨str "# @", rfl⟩, ?_⟩
    exact List.isPrefixOf_iff_prefix.mpr ⟨32 :: p, rfl⟩
  rw [grep, hlines, List.filter_append, hnone before fun l ↦ List.mem_append_left _,
    List.filter_cons_of_pos hline, hnone after fun l ↦ List.mem_append_right _]
  rfl

/-- What is cut from the line goes into the variable. -/
theorem Stored.substitute_cut (h : Stored motionConf p) {f : Bytes → Bytes}
    (hf : newline ∉ f (passwordLine p)) :
    substitute (cut f (grep mentions motionConf)) = (f (passwordLine p)).filter (· ≠ 0) := by
  have hnewline : newline ∉ passwordLine p := by
    rw [passwordLine, List.mem_append, not_or]
    exact ⟨by decide, h.oneLine⟩
  rw [h.grep_eq, cut, lines_unlines (by simpa using hnewline), List.map_singleton,
    substitute_line hf]

/-- `S11datapart` takes the password. -/
theorem Stored.datapart_password (h : Stored motionConf p) :
    S11datapart.password motionConf = p.filter (· ≠ 0) := by
  have hfields : fieldsFrom 32 3 (passwordLine p) = p :=
    fieldsFrom_three (a := str "#") (b := str "@admin_password") (by decide) (by decide)
  rw [S11datapart.password, h.substitute_cut (hfields.symm ▸ h.oneLine), hfields]

/-- `S91smb` takes the first word of the password. -/
theorem Stored.smb_password (h : Stored motionConf p) :
    S91smb.password motionConf = (p.takeWhile (· ≠ 32)).filter (· ≠ 0) := by
  have hfield : field 32 3 (passwordLine p) = p.takeWhile (· ≠ 32) :=
    field_three (a := str "#") (b := str "@admin_password") (by decide) (by decide)
  have hnewline : newline ∉ p.takeWhile (· ≠ 32) :=
    fun hmem ↦ h.oneLine ((List.takeWhile_prefix (· ≠ 32)).subset hmem)
  rw [S91smb.password, h.substitute_cut (hfield.symm ▸ hnewline), hfield]

/-! ### The passwords -/

/-- A first word that `echo -e` writes is not the whole password. -/
theorem firstLine_word_ne {a r : Bytes} (h : Kept e (a ++ 32 :: r)) (hnewline : newline ∉ a) :
    firstLine (echoEn e (twice a)) ≠ a ++ 32 :: r := by
  intro hline
  by_cases hlast : a.getLast? = some 92
  · -- The backslash at the end of the word joins the one of the terminator.
    obtain ⟨b, rfl⟩ := List.getLast?_eq_some_iff.mp hlast
    rw [List.append_assoc, List.singleton_append] at h hline
    have hb : Kept e b := by
      apply h.of_append_cons (by decide) (by decide)
      intro hback
      obtain ⟨c, rfl⟩ := List.getLast?_eq_some_iff.mp hback
      rw [List.append_assoc, List.singleton_append] at h
      have hwhole : (92 :: 92 :: 32 :: r) ∈ (92 :: 92 :: 32 :: r).tails := by simp
      exact absurd (h.of_append.escape _ hwhole ⟨[92, 92], [92], false⟩ rfl) (by decide)
    have htwice : twice (b ++ [92]) = b ++ 92 :: (92 :: 110 :: (b ++ [92] ++ str "\\n")) := by
      simp [twice, str]
    have hstart : newline ∉ b ++ [92, 110] := by
      rw [List.mem_append, not_or] at hnewline ⊢
      exact ⟨hnewline.1, by decide⟩
    have hcut : ∀ u, firstLine (b ++ 92 :: 110 :: u) = b ++ 92 :: 110 :: firstLine u := by
      intro u
      have htake : (b ++ [92, 110] ++ u).takeWhile (· ≠ newline) =
          b ++ [92, 110] ++ u.takeWhile (· ≠ newline) :=
        List.takeWhile_append_of_pos (forall_ne hstart)
      simpa [firstLine] using htake
    rw [htwice, hb.echoEn_append, echoEn_backslash, echoEn_plain (by decide), hcut] at hline
    exact absurd (List.cons.inj (List.cons.inj (List.append_cancel_left hline)).2).1 (by decide)
  · have ha : Kept e a := h.of_append_cons (by decide) (by decide) hlast
    rw [ha.firstLine_twice hnewline] at hline
    simp at hline

/-- Both passwords are the one in `motion.conf` if and only if it has no blank and no NUL and
`echo -e` leaves its backslashes alone. -/
theorem passwords_eq_iff (h : Stored motionConf p) :
    firstLine (S11datapart.passwdInput e motionConf) = p ∧
        firstLine (S91smb.smbpasswdInput e motionConf) = p ↔
      32 ∉ p ∧ 0 ∉ p ∧ Kept e p := by
  have hclear : ∀ s : Bytes, newline ∉ s → newline ∉ s.filter (· ≠ 0) ∧ 0 ∉ s.filter (· ≠ 0) := by
    intro s hs
    exact ⟨fun hmem ↦ hs (List.mem_of_mem_filter hmem), by simp⟩
  rw [S11datapart.passwdInput, S91smb.smbpasswdInput, firstLine_echoE, h.datapart_password,
    h.smb_password]
  constructor
  · rintro ⟨hunix, hsmb⟩
    have hkept : Kept e (p.filter (· ≠ 0)) := by
      apply kept_of_firstLine (hclear p h.oneLine).1 (hclear p h.oneLine).2
      rw [hunix]
    have hp : p.filter (· ≠ 0) = p := by
      rw [← hkept.firstLine_twice (hclear p h.oneLine).1, hunix]
    have hnul : 0 ∉ p := hp ▸ (hclear p h.oneLine).2
    rw [hp] at hkept
    refine ⟨fun hblank ↦ ?_, hnul, hkept⟩
    obtain ⟨a, r, rfl, ha⟩ := List.eq_append_cons_of_mem hblank
    have hword : (a ++ 32 :: r).takeWhile (· ≠ 32) = a := by
      rw [List.takeWhile_append_of_pos (forall_ne ha), List.takeWhile_cons_of_neg (by simp),
        List.append_nil]
    have hanewline : newline ∉ a := fun hmem ↦ h.oneLine (List.mem_append_left _ hmem)
    have hanul : 0 ∉ a := fun hmem ↦ hnul (List.mem_append_left _ hmem)
    rw [hword, filter_nul hanul] at hsmb
    exact firstLine_word_ne hkept hanewline hsmb
  · rintro ⟨hblank, hnul, hkept⟩
    rw [List.takeWhile_eq_self_iff.mpr (forall_ne hblank), filter_nul hnul]
    exact ⟨hkept.firstLine_twice h.oneLine, hkept.firstLine_twice h.oneLine⟩

/-- A password with a backslash that starts no escape. -/
theorem passwords_eq_iff_backslash :
    firstLine (S11datapart.passwdInput posix (str "# @admin_password a\\d\n")) = str "a\\d" ∧
        firstLine (S91smb.smbpasswdInput posix (str "# @admin_password a\\d\n")) = str "a\\d" ↔
      32 ∉ str "a\\d" ∧ 0 ∉ str "a\\d" ∧ Kept posix (str "a\\d") :=
  passwords_eq_iff ⟨by decide, [], [], by decide, by decide⟩

/-- Samba gets the first word of a password. -/
theorem passwords_differ :
    Stored (str "# @admin_password a b\n") (str "a b") ∧
      firstLine (S11datapart.passwdInput posix (str "# @admin_password a b\n")) = str "a b" ∧
      firstLine (S91smb.smbpasswdInput posix (str "# @admin_password a b\n")) = str "a" ∧
      str "a" ≠ str "a b" :=
  ⟨⟨by decide, [], [], by decide, by decide⟩, by decide, by decide, by decide⟩

end MotionPie.Board.Common
