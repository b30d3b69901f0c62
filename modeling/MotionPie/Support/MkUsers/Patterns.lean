import MotionPie.Shell.Sed

/-!
# Names inside the regular expressions of mkusers

`support/scripts/mkusers` pastes user and group names into the patterns of its sed scripts,
where a dot fits every byte. The scripts are modelled on the bytes of a line, in the C locale;
`.*` and `([^:]+,)?` take as much as they can, and what stands further left goes first.
-/

namespace MotionPie.Support.MkUsers

open Base Shell

/-- A name of letters, digits, underscores, hyphens and dots. -/
abbrev PlainName := { s : Bytes // s ≠ [] ∧ ∀ b ∈ s, isPlain b = true }

/-- A name as a regular expression, on a text. -/
def fits : Bytes → Bytes → Bool
  | [], [] => true
  | p :: n, b :: s => (p = 46 || p = b) && fits n s
  | _, _ => false

/-- `^NAME:`. -/
def begins (n l : Bytes) : Bool := fits n (l.take n.length) && (l.drop n.length).head? = some 58

/-- The name of a record. -/
def nameOf (l : Bytes) : Bytes := l.takeWhile (· ≠ 58)

/-- `/^NAME:.*/d`, `support/scripts/mkusers:222`, `support/scripts/mkusers:227` and
`support/scripts/mkusers:306`. -/
def deleteName (n c : Bytes) : Bytes := sed (fun l ↦ if begins n l then none else some l) c

/-- `^(GROUP:.*:)(([^:]+,)?)USER(,[^:]+*)?$`, with `i` bytes for `\1` and `j` bytes for `\2`. -/
def memberAt (group user l : Bytes) (i j : Nat) : Bool :=
  let list := (l.drop i).take j
  let others := l.drop (i + j + user.length)
  begins group l && group.length + 2 ≤ i && (l.take i).getLast? = some 58 &&
    (j = 0 || (2 ≤ j && list.getLast? = some 44 && 58 ∉ list)) &&
    fits user ((l.drop (i + j)).take user.length) &&
    (others = [] || (others.head? = some 44 && 58 ∉ others))

/-- Where the pattern puts `\1` and `\2`: the longest `\1`, and the longest `\2` for it. -/
def findMember (group user l : Bytes) : Option (Nat × Nat) :=
  let lengths := (List.range (l.length + 1)).reverse
  (lengths.flatMap fun i ↦ lengths.map (i, ·)).find? fun ij ↦ memberAt group user l ij.1 ij.2

/-- `s/^(GROUP:.*:)(([^:]+,)?)USER(,[^:]+*)?$/\1\2\4/`, `support/scripts/mkusers:266`. -/
def cutMember (group user l : Bytes) : Bytes :=
  match findMember group user l with
  | some (i, j) => l.take (i + j) ++ l.drop (i + j + user.length)
  | none => l

/-- `s/^(GROUP:.*)$/\1,USER/`, `support/scripts/mkusers:267`. -/
def appendMember (group user l : Bytes) : Bytes := if begins group l then l ++ 44 :: user else l

/-- The sed script of `add_user_to_group` on a line, `support/scripts/mkusers:266-269`. The last
two commands are `s/,+/,/` and `s/:,/:/`. -/
def editLine (group user l : Bytes) : Bytes :=
  dropBehind 58 44 (squeezeRun 44 (appendMember group user (cutMember group user l)))

/-! ### What a name fits -/

section Names

variable {n l s : Bytes}

/-- A name fits itself. -/
theorem fits_self (n : Bytes) : fits n n = true := by
  induction n with
  | nil => rfl
  | cons p n ih => simp [fits, ih]

/-- Without a dot, a name fits nothing else. -/
theorem eq_of_fits (hdot : 46 ∉ n) (h : fits n s = true) : n = s := by
  fun_induction fits n s with
  | case1 => rfl
  | case2 p n b s ih =>
    simp only [List.mem_cons, not_or] at hdot
    simp only [Bool.and_eq_true, Bool.or_eq_true, decide_eq_true_eq] at h
    rw [h.1.resolve_left (Ne.symm hdot.1), ih hdot.2 h.2]
  | case3 => cases h

/-- No name has a byte that is not plain. -/
theorem PlainName.notMem (n : PlainName) {b : UInt8} (hb : isPlain b = false) : b ∉ n.val :=
  notMem_of_isPlain n.property.2 hb

/-- The name of a record that starts with a field. -/
theorem nameOf_append (hn : 58 ∉ n) (s : Bytes) : nameOf (n ++ 58 :: s) = n := by
  rw [nameOf, List.takeWhile_append_of_pos (forall_ne hn), List.takeWhile_cons_of_neg (by simp),
    List.append_nil]

/-- A record is its name and what follows a colon. -/
theorem eq_nameOf_append (h : 58 ∈ l) : ∃ s, l = nameOf l ++ 58 :: s := by
  obtain ⟨n, s, rfl, hn⟩ := List.eq_append_cons_of_mem h
  exact ⟨s, by rw [nameOf_append hn]⟩

private theorem begins_append (n s : Bytes) : begins n (n ++ 58 :: s) = true := by
  simp [begins, fits_self]

/-- The pattern of a name finds the records of the name. -/
theorem begins_of_nameOf (h : 58 ∈ l) (hn : nameOf l = n) : begins n l = true := by
  obtain ⟨s, hs⟩ := eq_nameOf_append h
  rw [hs, hn]
  exact begins_append n s

private theorem exists_of_begins (h : begins n l = true) :
    ∃ m s, l = m ++ 58 :: s ∧ fits n m = true := by
  simp only [begins, Bool.and_eq_true, decide_eq_true_eq] at h
  obtain ⟨s, hs⟩ := List.head?_eq_some_iff.mp h.2
  exact ⟨l.take n.length, s, by rw [← hs, List.take_append_drop], h.1⟩

/-- A line that a name finds has a colon. -/
theorem mem_of_begins (h : begins n l = true) : 58 ∈ l := by
  obtain ⟨m, s, rfl, -⟩ := exists_of_begins h
  simp

/-- Without a dot, the pattern of a name finds nothing else: the names of a `Target` are taken
literally. -/
theorem begins_iff_of_noDot (hcolon : 58 ∉ n) (hdot : 46 ∉ n) :
    begins n l = true ↔ 58 ∈ l ∧ nameOf l = n := by
  constructor
  · intro h
    obtain ⟨m, s, rfl, hm⟩ := exists_of_begins h
    obtain rfl := eq_of_fits hdot hm
    exact ⟨by simp, nameOf_append hcolon s⟩
  · exact fun h ↦ begins_of_nameOf h.1 h.2

/-- Nothing is cut from a line that the pattern of the group does not find. -/
theorem cutMember_of_not_begins {group : Bytes} (user : Bytes) (h : begins group l = false) :
    cutMember group user l = l := by
  have hfind : findMember group user l = none := by
    rw [findMember, List.find?_eq_none]
    intro ij _
    simp [memberAt, h]
  rw [cutMember, hfind]

theorem memberAt_of_findMember {group user : Bytes} {i j : Nat}
    (h : findMember group user l = some (i, j)) : memberAt group user l i j = true :=
  List.find?_some (p := fun ij : Nat × Nat ↦ memberAt group user l ij.1 ij.2) h

/-- What the pattern of a member says about the line. -/
theorem exists_of_memberAt {group user : Bytes} {i j : Nat}
    (h : memberAt group user l i j = true) :
    ∃ k a s, l.take (i + j) = k ++ 58 :: a ∧ l.drop (i + j + user.length) = s ∧
      l = k ++ 58 :: (a ++ ((l.drop (i + j)).take user.length ++ s)) ∧
        58 ∉ a ∧ (a = [] ∨ ∃ z, a = z ++ [44]) ∧ 58 ∉ s ∧ (s = [] ∨ ∃ t, s = 44 :: t) := by
  simp only [memberAt, Bool.and_eq_true, Bool.or_eq_true, decide_eq_true_eq] at h
  obtain ⟨⟨⟨⟨-, hk⟩, hlist⟩, -⟩, hothers⟩ := h
  obtain ⟨k, hk⟩ := List.getLast?_eq_some_iff.mp hk
  have htake : l.take (i + j) = k ++ 58 :: (l.drop i).take j := by
    rw [List.take_add, hk, List.append_assoc]
    rfl
  refine ⟨k, (l.drop i).take j, _, htake, rfl, ?_, ?_, ?_, ?_, ?_⟩
  · rw [← List.drop_drop (i := user.length), List.take_append_drop, ← List.cons_append,
      ← List.append_assoc, ← htake, List.take_append_drop]
  · rcases hlist with hj | hlist
    · simp [hj]
    · exact hlist.2
  · rcases hlist with hj | hlist
    · exact .inl (by simp [hj])
    · exact .inr (List.getLast?_eq_some_iff.mp hlist.1.2)
  · rcases hothers with hnil | hothers
    · simp [hnil]
    · exact hothers.2
  · rcases hothers with hnil | hothers
    · exact .inl hnil
    · exact .inr (List.head?_eq_some_iff.mp hothers.1)

end Names

end MotionPie.Support.MkUsers
