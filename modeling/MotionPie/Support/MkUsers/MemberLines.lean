import Mathlib.Data.List.Forall2
import MotionPie.Support.MkUsers.Isolation

/-!
# The member lists of other groups

The script of `add_user_to_group` goes over every line of the group files. A line of an additional
group may get the user into its last field; every other line has to stay as it is. Whether the
script spares a line is a matter of each of its turns, since one turn can set up the next.
-/

namespace MotionPie.Support.MkUsers.Text

open Base Shell

/-- The fields before the last one, with their colons. -/
def headOf (l : Bytes) : Bytes := l.rdropWhile (· ≠ 58)

/-- The last field. -/
def fieldOf (l : Bytes) : Bytes := l.rtakeWhile (· ≠ 58)

/-- The members in a field, in their order. -/
def members (f : Bytes) : List Bytes := (f.splitOn 44).filter (· ≠ [])

/-- The members but one. -/
def membersBut (n f : Bytes) : List Bytes := (members f).filter (· ≠ n)

/-- A line without what it says about the membership of `n`. -/
def view (n l : Bytes) : Bytes × List Bytes := (headOf l, membersBut n (fieldOf l))

/-- The text that is cut from a line as the user `n`. -/
def cutText (group n l : Bytes) : Option Bytes :=
  (findMember group n l).map fun ij ↦ (l.drop (ij.1 + ij.2)).take n.length

/-- The script for the additional group `g` of `n` spares the line: it has no commas to tidy up,
in its list only if it is the line of an additional group. The pattern of `g` does not find the
line of any other group, and nothing but `n` is cut from the line of an additional one. -/
def Spares (n : Bytes) (additional : List Bytes) (l g : Bytes) : Prop :=
  if nameOf l ∈ additional then Settled 58 44 (headOf l) ∧ ∀ m ∈ cutText g n l, m = n
  else begins g l = false ∧ Settled 58 44 l

instance (n : Bytes) (additional : List Bytes) (l g : Bytes) :
    Decidable (Spares n additional l g) :=
  inferInstanceAs (Decidable (if nameOf l ∈ additional then
    Settled 58 44 (headOf l) ∧ ∀ m ∈ cutText g n l, m = n
    else begins g l = false ∧ Settled 58 44 l))

/-- A turn of the script. -/
def turn (n l g : Bytes) : Option Bytes := some (editLine g n l)

/-- A file has the lines of before, but for the membership of `n` in its additional groups. -/
def Kept (n : Bytes) (additional : List Bytes) (c c' : Bytes) : Prop :=
  List.Forall₂ (fun l l' ↦ nameOf l ≠ n →
    if nameOf l ∈ additional then view n l' = view n l else l' = l) (lines c) (lines c')

/-- A call for the user `n` changes no record of another group, but for the membership of `n` in
its additional groups. -/
def MembersIsolated (n : Bytes) (additional : List Bytes) (t t' : Target) : Prop :=
  Kept n additional t.group t'.group ∧ Option.Rel (Kept n additional) t.gshadow t'.gshadow

/-- A call that gets as far as the additional groups spares the lines of the others, at each turn
of the script. -/
def MembersSafe (awk : Awk) (env : Env) (n : PlainName) (r : Row) (t : Target) : Prop :=
  writesShadow awk env n r t = true → ∀ c ∈ t.group :: t.gshadow.toList, ∀ l ∈ lines c,
    nameOf l ≠ n.val → Meets (turn n) (Spares n r.additional) l r.additional

/-! ### One line -/

section Line

variable {n h f : Bytes}

private theorem takeWhile_reverse {f : Bytes} (hf : 58 ∉ f) :
    ∀ b ∈ f.reverse, decide (b ≠ 58) = true :=
  forall_ne (by simpa using hf)

theorem headOf_append (hf : 58 ∉ f) : headOf (h ++ 58 :: f) = h ++ [58] := by
  have hrev : (h ++ 58 :: f).reverse = f.reverse ++ 58 :: h.reverse := by simp
  rw [headOf, List.rdropWhile, hrev, List.dropWhile_append_of_pos (takeWhile_reverse hf),
    List.dropWhile_cons_of_neg (by simp)]
  simp

theorem fieldOf_append (hf : 58 ∉ f) : fieldOf (h ++ 58 :: f) = f := by
  have hrev : (h ++ 58 :: f).reverse = f.reverse ++ 58 :: h.reverse := by simp
  rw [fieldOf, List.rtakeWhile, hrev, List.takeWhile_append_of_pos (takeWhile_reverse hf),
    List.takeWhile_cons_of_neg (by simp)]
  simp

theorem view_append (hf : 58 ∉ f) : view n (h ++ 58 :: f) = (h ++ [58], membersBut n f) := by
  rw [view, headOf_append hf, fieldOf_append hf]

/-- A line with a colon has a last field. -/
theorem exists_append_field {l : Bytes} (hl : 58 ∈ l) : ∃ h f, l = h ++ 58 :: f ∧ 58 ∉ f := by
  obtain ⟨f, h, hrev, hf⟩ := List.eq_append_cons_of_mem (List.mem_reverse.mpr hl)
  refine ⟨h.reverse, f.reverse, ?_, by simpa using hf⟩
  rw [← List.reverse_reverse l, hrev]
  simp

/-- The name comes before the last field. -/
theorem nameOf_eq_of_append (f f' : Bytes) : nameOf (h ++ 58 :: f') = nameOf (h ++ 58 :: f) := by
  by_cases hh : 58 ∈ h
  · obtain ⟨x, y, rfl, hx⟩ := List.eq_append_cons_of_mem hh
    rw [List.append_assoc, List.append_assoc, List.cons_append, List.cons_append, nameOf_append hx,
      nameOf_append hx]
  · rw [nameOf_append hh, nameOf_append hh]

theorem membersBut_append (x y : Bytes) :
    membersBut n (x ++ 44 :: y) = membersBut n x ++ membersBut n y := by
  simp [membersBut, members, List.splitOn_append_cons_self]

theorem membersBut_cons (y : Bytes) : membersBut n (44 :: y) = membersBut n y :=
  membersBut_append [] y

theorem membersBut_self (hn : 44 ∉ n) : membersBut n n = [] := by
  by_cases hnil : n = [] <;> simp [membersBut, members, List.splitOn_eq_singleton hn, hnil]

/-- A member that has been cut is the user. -/
private theorem cutMember_append {g : Bytes} (hn : 44 ∉ n) (hcolon : 58 ∉ n) (hf : 58 ∉ f)
    (hcut : ∀ m ∈ cutText g n (h ++ 58 :: f), m = n) :
    ∃ f', 58 ∉ f' ∧ cutMember g n (h ++ 58 :: f) = h ++ 58 :: f' ∧
      membersBut n f' = membersBut n f := by
  unfold cutMember
  cases hfind : findMember g n (h ++ 58 :: f) with
  | none => exact ⟨f, hf, rfl, rfl⟩
  | some ij =>
    obtain ⟨i, j⟩ := ij
    have hmember : memberAt g n (h ++ 58 :: f) i j = true :=
      memberAt_of_findMember hfind
    have htext : ((h ++ 58 :: f).drop (i + j)).take n.length = n :=
      hcut _ (by rw [cutText, hfind]; rfl)
    obtain ⟨k, a, s, htake, hdrop, hline, ha, hsep, hs, hsep'⟩ := exists_of_memberAt hmember
    rw [htext] at hline
    have hfield : 58 ∉ a ++ (n ++ s) := by simp [ha, hcolon, hs]
    obtain rfl : f = a ++ (n ++ s) := by
      rw [← fieldOf_append (h := h) hf, hline, fieldOf_append hfield]
    have hhead : h ++ [58] = k ++ [58] := by
      rw [← headOf_append hf, hline, headOf_append hfield]
    obtain rfl : h = k := List.append_cancel_right hhead
    refine ⟨a ++ s, by simp [ha, hs], ?_, ?_⟩
    · simp only
      rw [htake, hdrop, List.append_assoc]
      rfl
    · have hrest : membersBut n (n ++ s) = membersBut n s := by
        rcases hsep' with rfl | ⟨t, rfl⟩
        · rw [List.append_nil, membersBut_self hn]
          rfl
        · rw [membersBut_append, membersBut_self hn, membersBut_cons]
          rfl
      rcases hsep with rfl | ⟨z, rfl⟩
      · rw [List.nil_append, List.nil_append, hrest]
      · simp only [List.append_assoc, List.singleton_append, membersBut_append, hrest]

/-- The user that is added is left out of the view. -/
private theorem appendMember_append {g : Bytes} (hn : 44 ∉ n) (hcolon : 58 ∉ n) (hf : 58 ∉ f) :
    ∃ f', 58 ∉ f' ∧ appendMember g n (h ++ 58 :: f) = h ++ 58 :: f' ∧
      membersBut n f' = membersBut n f := by
  unfold appendMember
  split
  · refine ⟨f ++ 44 :: n, by simp [hf, hcolon], by simp, ?_⟩
    rw [membersBut_append, membersBut_self hn, List.append_nil]
  · exact ⟨f, hf, rfl, rfl⟩

private theorem membersBut_dropWhile (y : Bytes) :
    membersBut n (y.dropWhile (· = 44)) = membersBut n y := by
  induction y with
  | nil => rfl
  | cons b y ih =>
    by_cases hb : b = 44
    · rw [List.dropWhile_cons_of_pos (by simp [hb]), ih, hb, membersBut_cons]
    · rw [List.dropWhile_cons_of_neg (by simp [hb])]

/-- A run of commas in the last field holds no member. -/
private theorem squeezeRun_append (hset : Settled 58 44 (h ++ [58])) (hf : 58 ∉ f) :
    ∃ f', 58 ∉ f' ∧ squeezeRun 44 (h ++ 58 :: f) = h ++ 58 :: f' ∧
      membersBut n f' = membersBut n f := by
  have hline : h ++ 58 :: f = (h ++ [58]) ++ f := by simp
  by_cases hcomma : 44 ∈ h ++ [58]
  · refine ⟨f, hf, ?_, rfl⟩
    rw [hline, squeezeRun_append_of_mem hcomma (by simp) hset.1]
  · refine ⟨squeezeRun 44 f, fun hmem ↦ hf (mem_of_mem_squeezeRun hmem), ?_, ?_⟩
    · rw [hline, squeezeRun_append_of_notMem hcomma]
      simp
    · by_cases hcomma' : 44 ∈ f
      · obtain ⟨x, y, rfl, hx⟩ := List.eq_append_cons_of_mem hcomma'
        have hrun : squeezeRun 44 (44 :: y) = 44 :: y.dropWhile (· = 44) := by simp [squeezeRun]
        rw [squeezeRun_append_of_notMem hx, hrun, membersBut_append, membersBut_append,
          membersBut_dropWhile]
      · rw [squeezeRun_of_notMem hcomma']

/-- A comma at the start of the last field holds no member. -/
private theorem dropBehind_append' (hset : Settled 58 44 (h ++ [58])) (hf : 58 ∉ f) :
    ∃ f', 58 ∉ f' ∧ dropBehind 58 44 (h ++ 58 :: f) = h ++ 58 :: f' ∧
      membersBut n f' = membersBut n f := by
  rw [dropBehind_append hset.2]
  cases f with
  | nil => exact ⟨[], hf, rfl, rfl⟩
  | cons b f =>
    simp only [List.mem_cons, not_or] at hf
    by_cases hb : b = 44
    · refine ⟨f, hf.2, by simp [dropBehind, hb], ?_⟩
      rw [hb, membersBut_cons]
    · refine ⟨b :: f, by simpa using hf, ?_, rfl⟩
      have hno : ¬ [58, 44] <:+: b :: f := fun h ↦ by
        have hmem : (58 : UInt8) ∈ b :: f := h.subset (by simp)
        simp [hf] at hmem
      rw [dropBehind, if_neg (by simp [hb]), dropBehind_eq_self hno]

/-- A turn that spares a line with a colon keeps its head and the other members. -/
private theorem editLine_append {g : Bytes} (hn : 44 ∉ n) (hcolon : 58 ∉ n) (hf : 58 ∉ f)
    (hset : Settled 58 44 (h ++ [58])) (hcut : ∀ m ∈ cutText g n (h ++ 58 :: f), m = n) :
    ∃ f', 58 ∉ f' ∧ editLine g n (h ++ 58 :: f) = h ++ 58 :: f' ∧
      membersBut n f' = membersBut n f := by
  obtain ⟨f₁, hf₁, h₁, hm₁⟩ := cutMember_append hn hcolon hf hcut
  obtain ⟨f₂, hf₂, h₂, hm₂⟩ := appendMember_append (g := g) (h := h) hn hcolon hf₁
  obtain ⟨f₃, hf₃, h₃, hm₃⟩ := squeezeRun_append (n := n) hset hf₂
  obtain ⟨f₄, hf₄, h₄, hm₄⟩ := dropBehind_append' (n := n) hset hf₃
  refine ⟨f₄, hf₄, ?_, hm₄.trans (hm₃.trans (hm₂.trans hm₁))⟩
  rw [editLine, h₁, h₂, h₃, h₄]

/-- A turn leaves a settled line alone that the pattern does not find. -/
theorem editLine_of_not_begins {g l : Bytes} (hbegins : begins g l = false)
    (hset : Settled 58 44 l) : editLine g n l = l := by
  rw [editLine, cutMember_of_not_begins n hbegins, appendMember, hbegins]
  simp only [Bool.false_eq_true, if_false]
  rw [hset.squeezeRun, dropBehind_eq_self hset.2]

/-- A turn that spares a line keeps its name, and all of it but for the membership of `n`. -/
theorem Spares.editLine {l g : Bytes} {additional : List Bytes}
    (hadd : ∀ k ∈ additional, 44 ∉ k) (hn : 44 ∉ n) (hcolon : 58 ∉ n)
    (hs : Spares n additional l g) :
    nameOf (editLine g n l) = nameOf l ∧
      if nameOf l ∈ additional then view n (MkUsers.editLine g n l) = view n l
      else MkUsers.editLine g n l = l := by
  unfold Spares at hs
  split at hs
  · next hmem =>
    rw [if_pos hmem]
    by_cases hl : 58 ∈ l
    · obtain ⟨h, f, rfl, hf⟩ := exists_append_field hl
      rw [headOf_append hf] at hs
      obtain ⟨f', hf', hedit, hmembers⟩ := editLine_append hn hcolon hf hs.1 hs.2
      rw [hedit, view_append hf, view_append hf', hmembers]
      exact ⟨nameOf_eq_of_append f f', rfl⟩
    · -- a line without a colon is the bare name of a group
      have hname : nameOf l = l := List.takeWhile_eq_self_iff.mpr (forall_ne hl)
      have hcomma : 44 ∉ l := hname ▸ hadd _ hmem
      have hset : Settled 58 44 l := by
        refine ⟨?_, fun h ↦ hl (h.subset (by simp))⟩
        have hnil : l.dropWhile (· ≠ 44) = [] := List.dropWhile_eq_nil_iff.mpr (forall_ne hcomma)
        rw [hnil]
        exact Nat.zero_le 1
      have hbegins : begins g l = false := by
        by_contra hb
        exact hl (mem_of_begins (by simpa using hb))
      rw [editLine_of_not_begins hbegins hset]
      exact ⟨rfl, rfl⟩
  · next hmem =>
    rw [if_neg hmem, editLine_of_not_begins hs.1 hs.2]
    exact ⟨rfl, rfl⟩

end Line

/-! ### All lines -/

section Runs

variable {awk : Awk} {env : Env} {n : PlainName} {r : Row} {t : Target}

private theorem execute_turn (n l : Bytes) (gs : List Bytes) :
    execute (turn n) l gs = some (gs.foldl (fun l g ↦ editLine g n l) l) := by
  induction gs generalizing l with
  | nil => rfl
  | cons g gs ih => exact execute_cons.mpr ⟨editLine g n l, rfl, ih _⟩

/-- All turns that spare a line keep its name, and all of it but for the membership of `n`. -/
theorem foldl_editLine {additional gs : List Bytes} {l : Bytes}
    (hadd : ∀ k ∈ additional, 44 ∉ k) (hspares : Meets (turn n) (Spares n additional) l gs) :
    if nameOf l ∈ additional then view n (gs.foldl (fun l g ↦ editLine g n l) l) = view n l
    else gs.foldl (fun l g ↦ editLine g n l) l = l := by
  refine (execute_inv_of_meets (fun l' ↦ nameOf l' = nameOf l ∧
    if nameOf l ∈ additional then view n l' = view n l else l' = l) ?_ ?_ hspares
    (execute_turn n l gs)).2
  · rintro l' g l'' ⟨hname, hkept⟩ hs hstep
    obtain rfl := Option.some.inj hstep
    obtain ⟨hname', hkept'⟩ := hs.editLine hadd (n.notMem rfl) (n.notMem rfl)
    refine ⟨hname'.trans hname, ?_⟩
    rw [hname] at hkept'
    split
    · next hmem =>
      rw [if_pos hmem] at hkept hkept'
      exact hkept'.trans hkept
    · next hmem =>
      rw [if_neg hmem] at hkept hkept'
      exact hkept'.trans hkept
  · refine ⟨rfl, ?_⟩
    split <;> rfl

private theorem editLine_ne {g n l : Bytes} (hn : newline ∉ n) (hl : newline ∉ l) :
    newline ∉ editLine g n l ∧ (editLine g n l = [] → l = []) := by
  have hcut : newline ∉ cutMember g n l ∧ (cutMember g n l = [] → l = []) := by
    unfold cutMember
    cases hfind : findMember g n l with
    | none => exact ⟨hl, id⟩
    | some ij =>
      obtain ⟨i, j⟩ := ij
      obtain ⟨k, a, s, htake, -⟩ := exists_of_memberAt (memberAt_of_findMember hfind)
      simp only [List.mem_append, not_or, List.append_eq_nil_iff]
      refine ⟨⟨fun h ↦ hl (List.mem_of_mem_take h), fun h ↦ hl (List.mem_of_mem_drop h)⟩, ?_⟩
      simp [htake]
  have happend : newline ∉ appendMember g n (cutMember g n l) ∧
      (appendMember g n (cutMember g n l) = [] → l = []) := by
    unfold appendMember
    split
    · have hcomma : newline ≠ 44 := by decide
      simp only [List.mem_append, List.mem_cons, not_or]
      exact ⟨⟨hcut.1, hcomma, hn⟩, by simp⟩
    · exact hcut
  unfold editLine
  rw [dropBehind_eq_nil, squeezeRun_eq_nil]
  exact ⟨fun h ↦ happend.1 (mem_of_mem_squeezeRun (mem_of_mem_dropBehind h)), happend.2⟩

/-- The script edits line by line. -/
theorem lines_foldl_editFile (gs : List Bytes) (c : Bytes) :
    lines (gs.foldl (fun c g ↦ editFile n g c) c) =
      (lines c).map fun l ↦ gs.foldl (fun l g ↦ editLine g n l) l := by
  induction gs generalizing c with
  | nil => simp
  | cons g gs ih =>
    have hone : lines (editFile n g c) = (lines c).map (editLine g n) := by
      rw [editFile, lines_sed, ← List.filterMap_eq_map]
      · rfl
      · rintro l k hl hk
        obtain rfl := Option.some.inj hk
        exact editLine_ne (n.notMem rfl) hl
    rw [List.foldl_cons, ih, hone, List.map_map]
    rfl

/-- A file is kept when every turn spares the lines of the other groups. -/
theorem kept_of_spares {c : Bytes} {gs : List PlainName}
    (h : ∀ l ∈ lines c, nameOf l ≠ n.val →
      Meets (turn n) (Spares n (gs.map Subtype.val)) l (gs.map Subtype.val)) :
    Kept n (gs.map Subtype.val) c ((gs.map Subtype.val).foldl (fun c g ↦ editFile n g c) c) := by
  have hadd : ∀ k ∈ gs.map Subtype.val, 44 ∉ k := by
    intro k hk
    obtain ⟨g, -, rfl⟩ := List.mem_map.mp hk
    exact PlainName.notMem g rfl
  rw [Kept, lines_foldl_editFile, List.forall₂_map_right_iff, List.forall₂_same]
  exact fun l hl hname ↦ foldl_editLine hadd (h l hl hname)

private theorem Kept.refl (n : Bytes) (additional : List Bytes) (c : Bytes) :
    Kept n additional c c := by
  rw [Kept, List.forall₂_same]
  intro l _ _
  split <;> rfl

/-- A call for a user keeps the records of other groups, if the condition holds. -/
theorem membersIsolated_of_safe (h : MembersSafe awk env n r t) :
    MembersIsolated n r.additional t (after (addOneUser awk env n r t)) := by
  have hsame : ∀ t' : Target, t'.group = t.group → t'.gshadow = t.gshadow →
      MembersIsolated n r.additional t t' := by
    intro t' hgroup hgshadow
    rw [MembersIsolated, hgroup, hgshadow]
    refine ⟨Kept.refl _ _ _, ?_⟩
    cases t.gshadow with
    | none => exact .none
    | some c => exact .some (Kept.refl _ _ _)
  cases ran awk env n r t with
  | checked hno ht' => exact hsame _ (by rw [ht']) (by rw [ht'])
  | removed hyes hno ht' => exact hsame _ (by rw [ht']; rfl) (by rw [ht']; rfl)
  | wrotePasswd hyes hno uid home huid hhome ht' =>
    exact hsame _ (by rw [ht']; rfl) (by rw [ht']; rfl)
  | wroteShadow hyes uid home passwd huid hhome hpasswd printed ht' =>
    have hspares := h hyes
    rw [List.forall_mem_cons] at hspares
    rw [ht', foldl_addUserToGroup]
    refine ⟨kept_of_spares hspares.1, ?_⟩
    change Option.Rel _ t.gshadow (t.gshadow.map _)
    cases hgshadow : t.gshadow with
    | none => exact .none
    | some c => exact .some (kept_of_spares (hspares.2 c (by simp [hgshadow])))

/-- Calls for a group and for a user leave the records of other names alone: those of groups, and
those in the files of users, exactly under the condition; those of groups in a call for a user if
every turn of the script spares them. -/
theorem isolated (awk : Awk) (env : Env) (n : PlainName) (t : Target) :
    (∀ gid, GroupIsolated n t (after (addOneGroup awk n gid t)) ↔ GroupSafe awk n gid t) ∧
      ∀ r, (RecordsIsolated n t (after (addOneUser awk env n r t)) ↔ RecordsSafe awk env n r t) ∧
        (MembersSafe awk env n r t →
          MembersIsolated n r.additional t (after (addOneUser awk env n r t))) :=
  ⟨fun _ ↦ groupIsolated_iff, fun _ ↦ ⟨recordsIsolated_iff, membersIsolated_of_safe⟩⟩

end Runs

/-! ### A name with a dot -/

/-- Names that are equal as texts, and numbers in decimal notation. -/
def plainAwk : Awk := ⟨fun a b ↦ a = b, fun s ↦ (toInt s).getD 0⟩

/-- A password is its own encoding, and every directory can be made. -/
def plainEnv : Env where
  targetDir := str "target"
  encodePassword s := if h : newline ∈ s then none else some ⟨s, h⟩
  mkdir _ := true

/-- Files with two groups. -/
def wwwFiles : Target where
  passwd := str "root:x:0:0:root:/root:/bin/sh\n"
  shadow := str "root::10933:0:99999:7:::\n"
  group := str "root:x:0:\nwww:x:33:motion\n"
  gshadow := none
  fakeroot := []

/-- The group `www.x` deletes the group `www`. -/
theorem wwwX_not_isolated : ¬ GroupIsolated (str "www.x") wwwFiles
    (after (addOneGroup plainAwk ⟨str "www.x", by decide⟩ (-1) wwwFiles)) := by
  unfold GroupIsolated
  decide +kernel

/-- The user `svc` joins the group `www`. -/
def svcRow : Row where
  uid := -1
  group := ⟨str "www", by decide⟩
  gid := -1
  passwd := ⟨str "*", by decide⟩
  home := ⟨str "-", by decide⟩
  shell := ⟨str "-", by decide⟩
  groups := [⟨str "www", by decide⟩]
  comment := ⟨str "service", by decide⟩

/-- Nobody but `svc` is affected. -/
theorem isolated_svc : MembersIsolated (str "svc") [str "www"] wwwFiles
    (after (addOneUser plainAwk plainEnv ⟨str "svc", by decide⟩ svcRow wwwFiles)) :=
  ((isolated plainAwk plainEnv ⟨str "svc", by decide⟩ wwwFiles).2 svcRow).2
    fun _ ↦ by decide +kernel

end MotionPie.Support.MkUsers.Text
