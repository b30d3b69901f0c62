import Mathlib.Data.List.Forall2
import MotionPie.Support.MkUsers.Script

/-!
# What add_user_to_group makes of a member list

The four substitutions take the user out of the list, add it at the end, and squeeze the first run
of commas. A user that is cut from the third place or a later one leaves an empty member, since
the first run of commas is an earlier one; and the user is in such a place after it has been added
to a list with two others.
-/

namespace MotionPie.Support.MkUsers

namespace MemberList

/-- The members that are listed. -/
def names (m : MemberList) : List String := m.items.filter (· ≠ "")

/-- The list of some members. -/
def ofNames : List String → MemberList
  | [] => .empty
  | x :: xs => ⟨x, xs⟩

/-- The four substitutions for a user, on the list of the group. -/
def edit (user : String) (m : MemberList) : MemberList :=
  ((m.removeUser user).appendUser user).squeeze.dropComma

/-- The list without the user, followed by the user. -/
def moved (user : String) (m : MemberList) : List String := m.names.filter (· ≠ user) ++ [user]

section Edit

variable {user : String} {m : MemberList} {xs ys : List String}

/-- A clean list is the list of its members. -/
theorem Clean.eq_ofNames (h : m.Clean) : m = ofNames m.names := by
  rcases m with ⟨first, rest⟩
  by_cases hf : first = ""
  · obtain rfl : rest = [] := h.1 hf
    simp [names, items, hf, ofNames, empty]
  · have hrest : rest.filter (· ≠ "") = rest :=
      List.filter_eq_self.mpr fun x hx ↦ by simpa using fun he : x = "" ↦ h.2 (he ▸ hx)
    simp only [names, items, ne_eq, hf, not_false_eq_true, decide_true, List.filter_cons_of_pos]
    simp only [ne_eq] at hrest
    rw [hrest]
    rfl

/-- A list is known from its items. -/
theorem eq_ofNames_of_items (h : m.items = xs) : m = ofNames xs := by
  subst h
  rfl

theorem notMem_names : "" ∉ m.names := by simp [names]

theorem items_ofNames (hxs : xs ≠ []) : (ofNames xs).items = xs := by
  cases xs with
  | nil => exact absurd rfl hxs
  | cons x xs => rfl

theorem names_ofNames (h : "" ∉ xs) : (ofNames xs).names = xs := by
  cases xs with
  | nil => rfl
  | cons x xs =>
    exact List.filter_eq_self.mpr fun y hy ↦ by simpa using fun he : y = "" ↦ h (he ▸ hy)

/-- A user that was no member. -/
theorem edit_of_notMem (hu : user ≠ "") (hxs : "" ∉ xs) (h : user ∉ xs) :
    (ofNames xs).edit user = ofNames (xs ++ [user]) := by
  cases xs with
  | nil => simp [edit, ofNames, empty, removeUser, blankLast, appendUser, squeeze, squeezeRest,
      dropComma, Ne.symm hu]
  | cons x xs =>
    simp only [List.mem_cons, not_or] at h hxs
    have hremove : (ofNames (x :: xs)).removeUser user = ⟨x, xs⟩ := by
      simp [ofNames, removeUser, Ne.symm hxs.1, blankLast_of_notMem h.2, Ne.symm h.1]
    have hclean : Clean ⟨x, xs ++ [user]⟩ := by
      refine ⟨fun hx ↦ absurd hx (Ne.symm hxs.1), ?_⟩
      simp [hxs.2, Ne.symm hu]
    rw [edit, hremove, appendUser]
    simp only
    rw [hclean.squeeze, hclean.dropComma]
    rfl

/-- A user that was the first member. -/
theorem edit_cons (hu : user ≠ "") (hxs : "" ∉ xs) (h : user ∉ xs) :
    (ofNames (user :: xs)).edit user = ofNames (xs ++ [user]) := by
  have hremove : (ofNames (user :: xs)).removeUser user = ⟨"", xs⟩ := by
    simp [ofNames, removeUser, hu, blankLast_of_notMem h]
  rw [edit, hremove]
  cases xs with
  | nil => rfl
  | cons x xs =>
    simp only [List.mem_cons, not_or] at hxs
    have hsqueeze : squeezeRest (x :: (xs ++ [user])) = x :: (xs ++ [user]) := by
      obtain ⟨y, ys, hy⟩ := List.exists_cons_of_ne_nil (l := xs ++ [user]) (by simp)
      rw [hy, squeezeRest, if_neg (Ne.symm hxs.1)]
    simp [appendUser, squeeze, hsqueeze, dropComma, ofNames]

/-- A user that was the second member. -/
theorem edit_cons_cons {x : String} (hx : x ≠ "") (hxs : "" ∉ xs)
    (h : user ∉ xs) : (ofNames (x :: user :: xs)).edit user = ofNames (x :: (xs ++ [user])) := by
  have hblank : blankLast user (user :: xs) = some ("" :: xs) :=
    blankLast_append [] h
  have hremove : (ofNames (x :: user :: xs)).removeUser user = ⟨x, "" :: xs⟩ := by
    simp [ofNames, removeUser, hx, hblank]
  have hsqueeze : squeezeRest ("" :: (xs ++ [user])) = xs ++ [user] := by
    cases xs with
    | nil => rfl
    | cons y ys =>
      simp only [List.mem_cons, not_or] at hxs
      obtain ⟨z, zs, hz⟩ := List.exists_cons_of_ne_nil (l := ys ++ [user]) (by simp)
      rw [List.cons_append, squeezeRest, if_pos rfl, hz, squeezeRest, if_neg (Ne.symm hxs.1)]
  rw [edit, hremove]
  simp only [appendUser, squeeze, List.cons_append, hsqueeze]
  obtain ⟨z, zs, hz⟩ := List.exists_cons_of_ne_nil (l := xs ++ [user]) (by simp)
  rw [hz]
  simp [dropComma, hx, ofNames]

/-- A user that was a later member: the comma behind the second member is not squeezed. -/
theorem edit_append {x y : String} (hx : x ≠ "") (hy : y ≠ "") (h : user ∉ ys) :
    (ofNames (x :: y :: (xs ++ user :: ys))).edit user =
      ⟨x, y :: (xs ++ "" :: (ys ++ [user]))⟩ := by
  have hblank : blankLast user (y :: (xs ++ user :: ys)) = some (y :: (xs ++ "" :: ys)) :=
    blankLast_append (y :: xs) h
  have hremove : (ofNames (x :: y :: (xs ++ user :: ys))).removeUser user =
      ⟨x, y :: (xs ++ "" :: ys)⟩ := by
    simp [ofNames, removeUser, hx, hblank]
  obtain ⟨z, zs, hz⟩ := List.exists_cons_of_ne_nil (l := xs ++ "" :: (ys ++ [user])) (by simp)
  rw [edit, hremove, appendUser]
  simp [squeeze, hz, squeezeRest, hy, dropComma, hx]

private theorem filter_ne_self (h : user ∉ xs) : xs.filter (· ≠ user) = xs :=
  List.filter_eq_self.mpr fun x hx ↦ by simpa using fun he : x = user ↦ h (he ▸ hx)

/-- The user moves to the end exactly when it is listed once at most, and no later than in the
second place. -/
theorem edit_eq_iff (hu : user ≠ "") (hxs : "" ∉ xs) :
    ((ofNames xs).edit user).items = xs.filter (· ≠ user) ++ [user] ↔
      xs.count user ≤ 1 ∧ user ∉ xs.drop 2 := by
  by_cases h : user ∈ xs
  · obtain ⟨as, bs, rfl, hbs⟩ := exists_last h
    simp only [List.mem_append, List.mem_cons, not_or] at hxs
    rcases as with _ | ⟨x, _ | ⟨y, as⟩⟩
    · refine iff_of_true ?_ ⟨?_, ?_⟩
      · rw [List.nil_append, edit_cons hu hxs.2.2 hbs, items_ofNames (by simp),
          List.filter_cons_of_neg (by simp), filter_ne_self hbs]
      · simp [List.count_eq_zero.mpr hbs]
      · exact fun hmem ↦ hbs (List.mem_of_mem_drop (i := 1) hmem)
    · have hx : x ≠ "" := by
        rintro rfl
        exact hxs.1 (by simp)
      have hedit : ((ofNames ([x] ++ user :: bs)).edit user).items = x :: (bs ++ [user]) := by
        rw [List.singleton_append, edit_cons_cons hx hxs.2.2 hbs, items_ofNames (by simp)]
      rw [hedit]
      by_cases hxu : x = user
      · refine iff_of_false (fun heq ↦ ?_) fun hcount ↦ ?_
        · have hlen := congrArg List.length heq
          simp only [hxu, List.singleton_append, ne_eq, not_true_eq_false, decide_false,
            Bool.false_eq_true, not_false_eq_true, List.filter_cons_of_neg, List.length_cons,
            List.length_append, List.length_nil] at hlen
          have hle := List.length_filter_le (fun y ↦ decide (¬ y = user)) bs
          omega
        · simp [hxu] at hcount
      · refine iff_of_true ?_ ⟨?_, by simpa using hbs⟩
        · rw [List.singleton_append, List.filter_cons_of_pos (by simpa using hxu),
            List.filter_cons_of_neg (by simp), filter_ne_self hbs]
          rfl
        · simp [hxu, List.count_eq_zero.mpr hbs]
    · simp only [List.mem_cons, not_or] at hxs
      have hedit : ((ofNames (x :: y :: (as ++ user :: bs))).edit user).items =
          x :: y :: (as ++ "" :: (bs ++ [user])) := by
        rw [edit_append (Ne.symm hxs.1.1) (Ne.symm hxs.1.2.1) hbs]
        rfl
      refine iff_of_false (fun heq ↦ ?_) fun hplace ↦ hplace.2 (by simp)
      rw [List.cons_append, List.cons_append, hedit] at heq
      have hmem : "" ∈ x :: y :: (as ++ "" :: (bs ++ [user])) := by simp
      rw [heq] at hmem
      simp [Ne.symm hu, hxs] at hmem
  · refine iff_of_true ?_ ⟨?_, fun hmem ↦ h (List.mem_of_mem_drop hmem)⟩
    · rw [edit_of_notMem hu hxs h, items_ofNames (by simp), filter_ne_self h]
    · simp [List.count_eq_zero.mpr h]

/-- A list in which the user is last stays the same exactly when there is at most one other
member. -/
theorem edit_last_iff (hu : user ≠ "") (hxs : "" ∉ xs) (h : user ∉ xs) :
    (ofNames (xs ++ [user])).edit user = ofNames (xs ++ [user]) ↔ xs.length ≤ 1 := by
  match xs with
  | [] => exact iff_of_true (edit_cons hu (by simp) (by simp)) (by simp)
  | [x] =>
    have hx : x ≠ "" := by
      rintro rfl
      exact hxs (by simp)
    exact iff_of_true (edit_cons_cons hx (by simp) (by simp)) (by simp)
  | x :: y :: xs =>
    simp only [List.mem_cons, not_or] at hxs
    refine iff_of_false (fun heq ↦ ?_) (by simp)
    have hedit : (ofNames (x :: y :: (xs ++ [user]))).edit user =
        ⟨x, y :: (xs ++ ["", user])⟩ :=
      edit_append (Ne.symm hxs.1) (Ne.symm hxs.2.1) (by simp)
    have hlen := congrArg (List.length ∘ items) (hedit.symm.trans heq)
    simp [items, ofNames] at hlen

end Edit

end MemberList

/-! ### Files -/

/-- A line of before and after: the user is last in the list of the group, which has no empty
member, and a line of another group is the same. -/
def Joined (username group : Name) (l l' : GroupLine) : Prop :=
  if l.name = group then
    l' = { l with members := l'.members } ∧ l'.members.items = l.members.moved username ∧
      "" ∉ l'.members.items
  else l' = l

/-- The user has joined the group, and joining again changes nothing. -/
def Normalises (username group : Name) (t : Target) : Prop :=
  List.Forall₂ (Joined username group) t.group (addUserToGroup username group t).group ∧
    (addUserToGroup username group (addUserToGroup username group t)).group =
      (addUserToGroup username group t).group

/-- The group has at most one other member, and the user is listed once at most. -/
def Short (username group : Name) (t : Target) : Prop :=
  ∀ l ∈ t.group, l.name = group →
    (l.members.names.filter (· ≠ username.val)).length ≤ 1 ∧
      l.members.names.count username.val ≤ 1

section Files

variable {username group : Name} {t : Target}

/-- The lines of the group, for lists without empty members. -/
private theorem joined_iff {l : GroupLine} (hl : l.members.Clean) (hg : l.name = group) :
    Joined username group l (editGroupLine username group l) ∧
        editGroupLine username group (editGroupLine username group l) =
          editGroupLine username group l ↔
      (l.members.names.filter (· ≠ username.val)).length ≤ 1 ∧
        l.members.names.count username.val ≤ 1 := by
  have hu := username.ne_empty
  have hempty := l.members.notMem_names
  have hedit : ∀ m : MemberList, editGroupLine username group { l with members := m } =
      { l with members := m.edit username } := by
    intro m
    simp [editGroupLine, hg, MemberList.edit]
  have hmoved : "" ∉ l.members.moved username := by
    simp [MemberList.moved, hempty, Ne.symm hu]
  rw [show editGroupLine username group l = _ from hedit l.members, hedit, Joined, if_pos hg]
  simp only [GroupLine.mk.injEq, true_and]
  rw [hl.eq_ofNames] at hmoved ⊢
  simp only [MemberList.moved, MemberList.names_ofNames hempty] at hmoved ⊢
  generalize l.members.names = xs at *
  have hothers : "" ∉ xs.filter (· ≠ username.val) := fun h ↦ hempty (List.mem_of_mem_filter h)
  have huser : username.val ∉ xs.filter (· ≠ username.val) := by simp
  constructor
  · rintro ⟨⟨hitems, -⟩, htwice⟩
    rw [MemberList.eq_ofNames_of_items hitems] at htwice
    exact ⟨(MemberList.edit_last_iff hu hothers huser).mp htwice,
      ((MemberList.edit_eq_iff hu hempty).mp hitems).1⟩
  · rintro ⟨hlen, hcount⟩
    have hsum : xs.length = (xs.filter (· ≠ username.val)).length + xs.count username.val := by
      rw [List.length_eq_countP_add_countP (· ≠ username.val), List.countP_eq_length_filter,
        List.count]
      congr 2
      funext x
      simpa using (beq_eq_decide x username.val).symm
    have hdrop : xs.drop 2 = [] := List.drop_eq_nil_of_le (by omega)
    have hitems := (MemberList.edit_eq_iff hu hempty).mpr ⟨hcount, by simp [hdrop]⟩
    rw [hitems, MemberList.eq_ofNames_of_items hitems]
    exact ⟨⟨rfl, hmoved⟩, (MemberList.edit_last_iff hu hothers huser).mpr hlen⟩

/-- For lists without empty members, all of that holds exactly when the group has at most one
other member and lists the user once at most. -/
theorem normalises_iff (hclean : ∀ l ∈ t.group, l.members.Clean) :
    Normalises username group t ↔ Short username group t := by
  have hlines : (addUserToGroup username group t).group =
      t.group.map (editGroupLine username group) := rfl
  have htwice : (addUserToGroup username group (addUserToGroup username group t)).group =
      (t.group.map (editGroupLine username group)).map (editGroupLine username group) := rfl
  rw [Normalises, htwice, hlines, List.map_map, List.forall₂_map_right_iff, List.forall₂_same,
    List.map_inj_left, ← forall₂_and]
  refine forall₂_congr fun l hl ↦ ?_
  by_cases hg : l.name = group
  · simp only [hg, forall_const]
    exact joined_iff (hclean l hl) hg
  · have hsame : editGroupLine username group l = l := editGroupLine_of_ne hg (hclean l hl)
    refine iff_of_true ⟨?_, by rw [Function.comp_apply, hsame, hsame]⟩ fun h ↦ absurd h hg
    rw [Joined, if_neg hg, hsame]

end Files

/-- A group with two members besides the one that is added. -/
def videoFiles : Target :=
  ⟨[], [], [⟨"video", "x", 28, ⟨"svc", ["motion", "www"]⟩, by decide⟩], none, []⟩

/-- Nothing is wrong with the file, but the user `www` moves behind an empty member. -/
theorem videoFiles_not_normalised : (∀ l ∈ videoFiles.group, l.members.Clean) ∧
    ¬ Normalises ⟨"www", by decide⟩ ⟨"video", by decide⟩ videoFiles := by
  refine ⟨by decide, fun h ↦ ?_⟩
  have hjoined := (List.forall₂_cons.mp h.1).1
  rw [Joined, if_pos rfl] at hjoined
  exact absurd hjoined.2.2 (by decide)

/-- A group with one other member. -/
theorem normalises_iff_audio : Normalises ⟨"svc", by decide⟩ ⟨"audio", by decide⟩ audioFiles :=
  (normalises_iff (by decide)).mpr (by unfold Short; decide)

end MotionPie.Support.MkUsers
