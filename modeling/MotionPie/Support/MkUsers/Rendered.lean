import MotionPie.Support.MkUsers.MemberLines
import MotionPie.Support.MkUsers.Script

/-!
# Records as bytes

The records of the group files as the text that is in the files, and the connection of the two
models of mkusers: on the bytes of these files, `add_user_to_group` does what the edits of the
records do. A field is any text of bytes without the three that separate lines, fields and members.
-/

namespace MotionPie.Support.MkUsers

open Base Shell
open Text (headOf_append fieldOf_append)

/-! ### Fields -/

/-- A text of bytes without newlines, commas and colons. -/
def isField (s : String) : Bool :=
  s.toList.all fun c ↦ c.toNat < 256 && decide (c.toNat ∉ [10, 44, 58])

section Fields

variable {s t : String}

private theorem field_byte (hs : isField s = true) {c : Char} (hc : c ∈ s.toList) :
    c.toNat.toUInt8.toNat = c.toNat ∧ c.toNat ∉ [10, 44, 58] := by
  have hfield := List.all_eq_true.mp hs c hc
  rw [Bool.and_eq_true, decide_eq_true_eq, decide_eq_true_eq] at hfield
  refine ⟨?_, hfield.2⟩
  rw [Nat.toUInt8, UInt8.toNat_ofNat']
  exact Nat.mod_eq_of_lt hfield.1

/-- A field has no newline, comma or colon. -/
theorem notMem_str (hs : isField s = true) {b : UInt8} (hb : b.toNat ∈ [10, 44, 58]) :
    b ∉ str s := by
  intro hmem
  obtain ⟨c, hc, rfl⟩ := List.mem_map.mp hmem
  obtain ⟨hbyte, hno⟩ := field_byte hs hc
  rw [hbyte] at hb
  exact hno hb

/-- A field is known from its bytes. -/
theorem str_inj (hs : isField s = true) (ht : isField t = true) : str s = str t ↔ s = t := by
  refine ⟨fun h ↦ ?_, fun h ↦ h ▸ rfl⟩
  have hback : ∀ u : String, isField u = true →
      (str u).map (fun b ↦ Char.ofNat b.toNat) = u.toList := by
    intro u hu
    rw [str, List.map_map]
    refine (List.map_congr_left fun c hc ↦ ?_).trans (List.map_id _)
    rw [Function.comp_apply, (field_byte hu hc).1, Char.ofNat_toNat]
    rfl
  rw [← String.toList_inj, ← hback s hs, ← hback t ht, h]

/-- The empty field. -/
theorem str_eq_nil : str s = [] ↔ s = "" := by
  rw [str, List.map_eq_nil_iff, String.toList_eq_nil_iff]

-- The characters of a name.
private theorem name_byte {c : Char} (h : (c.isAlphanum || c == '_' || c == '-') = true) :
    c.toNat < 256 ∧ c.toNat ∉ [10, 44, 46, 58] := by
  constructor
  · rw [Bool.or_eq_true, Bool.or_eq_true] at h
    have hrange : ∀ hi : Char, c.val ≤ hi.val → hi.toNat < 256 → c.toNat < 256 := by
      intro hi hc hhi
      exact (UInt32.le_iff_toNat_le.mp hc).trans_lt hhi
    rcases h with (h | h) | h
    · rcases (Bool.or_eq_true c.isAlpha c.isDigit).mp h with halpha | hdigit
      · rcases (Bool.or_eq_true c.isUpper c.isLower).mp halpha with hupper | hlower
        · exact hrange 'Z' (of_decide_eq_true hupper).2 (by decide)
        · exact hrange 'z' (of_decide_eq_true ((Bool.and_eq_true _ _).mp hlower).2) (by decide)
      · exact hrange '9' (of_decide_eq_true ((Bool.and_eq_true _ _).mp hdigit).2) (by decide)
    · rw [beq_iff_eq.mp h]
      decide
    · rw [beq_iff_eq.mp h]
      decide
  · intro hmem
    have hno : ∀ n ∈ [10, 44, 46, 58], ((Char.ofNat n).isAlphanum ||
        Char.ofNat n == '_' || Char.ofNat n == '-') = false := by decide
    have hc := hno c.toNat hmem
    rw [Char.ofNat_toNat, h] at hc
    cases hc

/-- A name is a field, and has no dot. -/
theorem isField_of_isName (hs : isName s = true) : isField s = true ∧ 46 ∉ str s := by
  have hchar : ∀ c ∈ s.toList, (c.isAlphanum || c == '_' || c == '-') = true := by
    unfold isName at hs
    split at hs
    · cases hs
    · next c cs heq =>
      rw [heq]
      rw [Bool.and_eq_true, Bool.or_eq_true] at hs
      intro d hd
      rcases List.mem_cons.mp hd with rfl | hd
      · rcases hs.1 with h | h <;> simp [Char.isAlphanum, h]
      · exact List.all_eq_true.mp hs.2 d hd
  refine ⟨List.all_eq_true.mpr fun c hc ↦ ?_, fun hmem ↦ ?_⟩
  · obtain ⟨hlt, hno⟩ := name_byte (hchar c hc)
    have hfield : c.toNat ∉ [10, 44, 58] := fun hmem ↦ hno (by simp at hmem ⊢; omega)
    simp only [hlt, hfield, decide_true, Bool.and_self, not_false_eq_true]
  · obtain ⟨c, hc, hdot⟩ := List.mem_map.mp hmem
    obtain ⟨hlt, hno⟩ := name_byte (hchar c hc)
    have hbyte : c.toNat.toUInt8.toNat = c.toNat := by
      rw [Nat.toUInt8, UInt8.toNat_ofNat']
      exact Nat.mod_eq_of_lt hlt
    rw [hdot] at hbyte
    exact hno (hbyte ▸ by decide)

end Fields

/-! ### Where the pattern finds a member -/

section Pattern

variable {g u h f a s l : Bytes} {i j : Nat}

/-- What may stand before and behind the user in a list. -/
def Around (a s : Bytes) : Prop :=
  (a = [] ∨ ∃ z, z ≠ [] ∧ a = z ++ [44]) ∧ (s = [] ∨ ∃ t, s = 44 :: t)

/-- A user that the pattern finds stands in the last field of the line. -/
theorem around_of_memberAt (hu : u ≠ []) (hdot : 46 ∉ u) (hcolon : 58 ∉ u) (hf : 58 ∉ f)
    (hm : memberAt g u (h ++ 58 :: f) i j = true) :
    i = h.length + 1 ∧ ∃ a s, f = a ++ (u ++ s) ∧ j = a.length ∧ Around a s := by
  have hulen : 0 < u.length := List.length_pos_iff.mpr hu
  simp only [memberAt, Bool.and_eq_true, Bool.or_eq_true, decide_eq_true_eq] at hm
  generalize hl : h ++ 58 :: f = l at hm
  obtain ⟨⟨⟨⟨-, hk⟩, hlist⟩, hfits⟩, hothers⟩ := hm
  obtain ⟨k, hk⟩ := List.getLast?_eq_some_iff.mp hk
  have huser : (l.drop (i + j)).take u.length = u := (eq_of_fits hdot hfits).symm
  have hdrop : l.drop i = (l.drop i).take j ++ (u ++ l.drop (i + j + u.length)) :=
    calc l.drop i = (l.drop i).take j ++ l.drop (i + j) := by
          rw [← List.drop_drop, List.take_append_drop]
      _ = (l.drop i).take j ++ ((l.drop (i + j)).take u.length ++
            l.drop (i + j + u.length)) := by
          rw [← List.drop_drop (i := u.length), List.take_append_drop]
      _ = _ := by rw [huser]
  generalize hs : l.drop (i + j + u.length) = s at hdrop hothers
  generalize ha : (l.drop i).take j = a at hdrop hlist
  have haround : Around a s ∧ 58 ∉ a ∧ 58 ∉ s := by
    refine ⟨⟨?_, ?_⟩, ?_, ?_⟩
    · rcases hlist with rfl | ⟨⟨hj, hlast⟩, -⟩
      · exact .inl (by rw [← ha, List.take_zero])
      · obtain ⟨z, hz⟩ := List.getLast?_eq_some_iff.mp hlast
        refine .inr ⟨z, ?_, hz⟩
        rintro rfl
        have hlong := congrArg List.length hdrop
        have hshort := congrArg List.length ha
        rw [hz] at hlong hshort
        simp only [List.length_append, List.length_take, List.length_cons, List.length_nil]
          at hlong hshort
        omega
    · rcases hothers with hnil | hothers
      · exact .inl hnil
      · exact .inr (List.head?_eq_some_iff.mp hothers.1)
    · rcases hlist with rfl | hlist
      · simp [← ha]
      · exact hlist.2
    · rcases hothers with hnil | hothers
      · simp [hnil]
      · exact hothers.2
  obtain ⟨haround, hacolon, hscolon⟩ := haround
  have hfield : 58 ∉ a ++ (u ++ s) := by simp [hacolon, hcolon, hscolon]
  have hline : h ++ 58 :: f = k ++ 58 :: (a ++ (u ++ s)) := by
    rw [hl, ← hdrop, ← List.singleton_append, ← List.append_assoc, ← hk, List.take_append_drop]
  have hfe : f = a ++ (u ++ s) := by
    rw [← fieldOf_append (h := h) hf, hline, fieldOf_append hfield]
  have hhead : h ++ [58] = k ++ [58] := by
    rw [← headOf_append hf, hline, headOf_append hfield]
  obtain rfl : h = k := List.append_cancel_right hhead
  have hflen : f.length = a.length + (u.length + s.length) := by rw [hfe]; simp
  have hllen : l.length = h.length + (f.length + 1) := by rw [← hl]; simp
  have hilen := congrArg List.length hk
  have hjlen := congrArg List.length ha
  simp only [List.length_take, List.length_drop, List.length_append, List.length_cons,
    List.length_nil] at hilen hjlen
  exact ⟨by omega, a, s, hfe, by omega, haround⟩

/-- A user in the last field of the line is found by the pattern. -/
theorem memberAt_of_around {a s : Bytes} (hf : 58 ∉ a ++ (u ++ s))
    (hbegins : begins g (h ++ 58 :: (a ++ (u ++ s))) = true) (hlen : g.length < h.length)
    (haround : Around a s) :
    memberAt g u (h ++ 58 :: (a ++ (u ++ s))) (h.length + 1) a.length = true := by
  obtain ⟨ha, hs⟩ := haround
  have hline : h ++ 58 :: (a ++ (u ++ s)) = (h ++ [58]) ++ (a ++ (u ++ s)) := by simp
  have hlength : (h ++ [58]).length = h.length + 1 := by simp
  have htake : (h ++ 58 :: (a ++ (u ++ s))).take (h.length + 1) = h ++ [58] := by
    rw [hline, List.take_left' hlength]
  have hdrop : (h ++ 58 :: (a ++ (u ++ s))).drop (h.length + 1) = a ++ (u ++ s) := by
    rw [hline, List.drop_left' hlength]
  have hdrop' : (h ++ 58 :: (a ++ (u ++ s))).drop (h.length + 1 + a.length) = u ++ s := by
    rw [← List.drop_drop, hdrop, List.drop_left]
  have hdrop'' : (h ++ 58 :: (a ++ (u ++ s))).drop (h.length + 1 + a.length + u.length) = s := by
    rw [← List.drop_drop, hdrop', List.drop_left]
  simp only [List.mem_append, not_or] at hf
  simp only [memberAt, htake, hdrop, hdrop', hdrop'', hbegins, List.take_left, fits_self,
    Bool.and_eq_true, Bool.or_eq_true, decide_eq_true_eq, List.getLast?_concat, true_and,
    and_true]
  refine ⟨⟨by omega, ?_⟩, ?_⟩
  · rcases ha with rfl | ⟨z, hz, rfl⟩
    · exact .inl rfl
    · have hzlen : 0 < z.length := List.length_pos_iff.mpr hz
      refine .inr ⟨⟨?_, List.getLast?_concat⟩, hf.1⟩
      rw [List.length_append, List.length_singleton]
      omega
  · rcases hs with rfl | ⟨t, rfl⟩
    · exact .inl rfl
    · exact .inr ⟨rfl, hf.2.2⟩

/-- The pattern of a member puts the user into the last field of the line. -/
theorem memberAt_iff (hu : u ≠ []) (hdot : 46 ∉ u) (hcolon : 58 ∉ u) (hf : 58 ∉ f)
    (hbegins : begins g (h ++ 58 :: f) = true) (hlen : g.length < h.length) :
    memberAt g u (h ++ 58 :: f) i j = true ↔
      i = h.length + 1 ∧ ∃ a s, f = a ++ (u ++ s) ∧ j = a.length ∧ Around a s := by
  constructor
  · exact around_of_memberAt hu hdot hcolon hf
  · rintro ⟨rfl, a, s, rfl, rfl, haround⟩
    exact memberAt_of_around hf hbegins hlen haround

/-- The pattern takes the longest list before the user. -/
theorem findMember_eq_some (hm : memberAt g u l i j = true) (hi : i ≤ l.length) (hj : j ≤ l.length)
    (hmax : ∀ i' j', memberAt g u l i' j' = true → i' = i ∧ j' ≤ j) :
    findMember g u l = some (i, j) := by
  let before (p q : Nat × Nat) : Prop := q.1 < p.1 ∨ p.1 = q.1 ∧ q.2 < p.2
  let lengths := (List.range (l.length + 1)).reverse
  have hdesc : lengths.Pairwise (· > ·) := by
    rw [List.pairwise_reverse]
    exact List.pairwise_lt_range
  have hsorted : (lengths.flatMap fun i ↦ lengths.map (i, ·)).Pairwise before := by
    rw [List.pairwise_flatMap]
    constructor
    · intro i _
      rw [List.pairwise_map]
      exact hdesc.imp fun h ↦ .inr ⟨rfl, h⟩
    · refine hdesc.imp fun hlt p hp q hq ↦ ?_
      obtain ⟨_, _, rfl⟩ := List.mem_map.mp hp
      obtain ⟨_, _, rfl⟩ := List.mem_map.mp hq
      exact .inl hlt
  have hmem : (i, j) ∈ lengths.flatMap fun i ↦ lengths.map (i, ·) := by
    have hlength : ∀ n, n ∈ lengths ↔ n ≤ l.length := by
      intro n
      rw [List.mem_reverse, List.mem_range]
      omega
    rw [List.mem_flatMap]
    exact ⟨i, (hlength i).mpr hi, List.mem_map_of_mem ((hlength j).mpr hj)⟩
  obtain ⟨ps, qs, hsplit⟩ := List.append_of_mem hmem
  rw [findMember, List.find?_eq_some_iff_append]
  refine ⟨hm, ps, qs, hsplit, fun p hp ↦ ?_⟩
  rw [hsplit, List.pairwise_append] at hsorted
  have hbefore := hsorted.2.2 p hp (i, j) List.mem_cons_self
  by_contra hno
  obtain ⟨hi', hj'⟩ := hmax p.1 p.2 (by simpa using hno)
  rcases hbefore with hlt | ⟨-, hlt⟩
  · exact absurd hi' (Nat.ne_of_gt hlt)
  · exact absurd hj' (Nat.not_le_of_gt hlt)

/-- What the pattern cuts, if no later member can be cut. -/
theorem cutMember_eq (hu : u ≠ []) (hdot : 46 ∉ u) (hcolon : 58 ∉ u)
    (hf : 58 ∉ a ++ (u ++ s)) (hbegins : begins g (h ++ 58 :: (a ++ (u ++ s))) = true)
    (hlen : g.length < h.length) (haround : Around a s)
    (hmax : ∀ a' s', a ++ (u ++ s) = a' ++ (u ++ s') → Around a' s' → a'.length ≤ a.length) :
    cutMember g u (h ++ 58 :: (a ++ (u ++ s))) = h ++ 58 :: (a ++ s) := by
  have hiff := fun i j ↦ memberAt_iff (i := i) (j := j) hu hdot hcolon hf hbegins hlen
  have hm : memberAt g u (h ++ 58 :: (a ++ (u ++ s))) (h.length + 1) a.length = true :=
    (hiff _ _).mpr ⟨rfl, a, s, rfl, rfl, haround⟩
  have hfind : findMember g u (h ++ 58 :: (a ++ (u ++ s))) = some (h.length + 1, a.length) := by
    refine findMember_eq_some hm (by simp) (by simp; omega) ?_
    intro i' j' hm'
    obtain ⟨hi, a', s', heq, rfl, haround'⟩ := (hiff _ _).mp hm'
    exact ⟨hi, hmax a' s' heq haround'⟩
  have hline : h ++ 58 :: (a ++ (u ++ s)) = (h ++ 58 :: a) ++ (u ++ s) := by simp
  have hlength : (h ++ 58 :: a).length = h.length + 1 + a.length := by
    rw [List.length_append, List.length_cons]
    omega
  rw [cutMember, hfind]
  simp only
  rw [← List.drop_drop, hline, List.take_left' hlength, List.drop_left' hlength, List.drop_left]
  simp

/-- The pattern cuts nothing if no member can be cut. -/
theorem cutMember_eq_self (hu : u ≠ []) (hdot : 46 ∉ u) (hcolon : 58 ∉ u) (hf : 58 ∉ f)
    (hbegins : begins g (h ++ 58 :: f) = true) (hlen : g.length < h.length)
    (hnone : ∀ a s, f = a ++ (u ++ s) → ¬ Around a s) :
    cutMember g u (h ++ 58 :: f) = h ++ 58 :: f := by
  have hfind : findMember g u (h ++ 58 :: f) = none := by
    rw [findMember, List.find?_eq_none]
    intro p _ hm
    obtain ⟨-, a, s, heq, -, haround⟩ :=
      (memberAt_iff hu hdot hcolon hf hbegins hlen).mp hm
    exact hnone a s heq haround
  rw [cutMember, hfind]

end Pattern

/-! ### Lists of items -/

/-- Items with commas between them. -/
def commaJoin (xs : List String) : Bytes := [44].intercalate (xs.map str)

/-- Items with a comma behind each. -/
def before (xs : List String) : Bytes := xs.flatMap (str · ++ [44])

/-- Items with a comma before each. -/
def behind (xs : List String) : Bytes := xs.flatMap (44 :: str ·)

section Items

variable {x user : String} {xs as bs : List String} {a s : Bytes}

/-- A comma follows an item that is not the last. -/
theorem commaJoin_cons_of_ne_nil (h : xs ≠ []) :
    commaJoin (x :: xs) = str x ++ 44 :: commaJoin xs := by
  obtain ⟨y, ys, rfl⟩ := List.exists_cons_of_ne_nil h
  simp [commaJoin, List.intercalate_cons_cons]

/-- A comma stands before every item but the first. -/
theorem commaJoin_cons (x : String) (xs : List String) :
    commaJoin (x :: xs) = str x ++ behind xs := by
  induction xs generalizing x with
  | nil => simp [commaJoin, behind]
  | cons y ys ih =>
    rw [commaJoin_cons_of_ne_nil (by simp), ih]
    simp [behind]

/-- The text around an item. -/
theorem commaJoin_append (as : List String) (x : String) (bs : List String) :
    commaJoin (as ++ x :: bs) = before as ++ (str x ++ behind bs) := by
  induction as with
  | nil => exact commaJoin_cons x bs
  | cons y as ih =>
    rw [List.cons_append, commaJoin_cons_of_ne_nil (by simp), ih]
    simp [before]

/-- The text before an item ends with a comma. -/
theorem before_eq (h : as ≠ []) : before as = commaJoin as ++ [44] := by
  induction as with
  | nil => exact absurd rfl h
  | cons y as ih =>
    cases as with
    | nil => simp [before, commaJoin]
    | cons z as =>
      rw [commaJoin_cons_of_ne_nil (by simp), List.append_assoc, List.cons_append, ← ih (by simp)]
      simp [before]

/-- The empty text has no item, or an empty one. -/
theorem commaJoin_eq_nil : commaJoin xs = [] ↔ xs = [] ∨ xs = [""] := by
  match xs with
  | [] => simp [commaJoin]
  | [x] => simp [commaJoin, str_eq_nil]
  | x :: y :: xs =>
    rw [commaJoin_cons_of_ne_nil (by simp)]
    simp

/-- An item may be cut unless it stands behind a single empty one. -/
theorem around_iff : Around (before as) (behind bs) ↔ as ≠ [""] := by
  have hbehind : behind bs = [] ∨ ∃ t, behind bs = 44 :: t := by
    cases bs with
    | nil => exact .inl rfl
    | cons y bs => exact .inr ⟨str y ++ behind bs, by simp [behind]⟩
  rw [Around, and_iff_left hbehind]
  by_cases has : as = []
  · subst has
    exact iff_of_true (.inl rfl) (by simp)
  · rw [before_eq has]
    constructor
    · rintro (hnil | ⟨z, hz, heq⟩) rfl
      · simp at hnil
      · exact hz (List.append_cancel_right heq).symm
    · intro hne
      refine .inr ⟨commaJoin as, fun hnil ↦ ?_, rfl⟩
      exact (commaJoin_eq_nil.mp hnil).elim has hne

/-- The text around the user is the text around an item. -/
theorem exists_of_commaJoin (hxs : ∀ x ∈ xs, isField x = true) (hne : xs ≠ [])
    (huser : isField user = true) (heq : commaJoin xs = a ++ (str user ++ s))
    (haround : Around a s) :
    ∃ as bs, xs = as ++ user :: bs ∧ a = before as ∧ s = behind bs := by
  have hcomma : ∀ y : String, isField y = true → (44 : UInt8) ∉ str y :=
    fun y hy ↦ notMem_str hy (by decide)
  have hsplit : xs.map str = (a ++ (str user ++ s)).splitOn 44 := by
    rw [← heq, commaJoin, List.splitOn_intercalate]
    · intro l hl
      obtain ⟨y, hy, rfl⟩ := List.mem_map.mp hl
      exact hcomma y (hxs y hy)
    · simpa using hne
  have hrest : ∃ q, (str user ++ s).splitOn 44 = str user :: q := by
    rcases haround.2 with rfl | ⟨t, rfl⟩
    · exact ⟨[], by rw [List.append_nil, List.splitOn_eq_singleton (hcomma user huser)]⟩
    · refine ⟨t.splitOn 44, ?_⟩
      rw [List.splitOn_append_cons_self, List.splitOn_eq_singleton (hcomma user huser)]
      rfl
  obtain ⟨q, hq⟩ := hrest
  have hplace : ∃ as bs, xs = as ++ user :: bs ∧ a = before as := by
    have hitems : ∀ p, xs.map str = p ++ str user :: q →
        ∃ as bs, xs = as ++ user :: bs ∧ as.map str = p := by
      intro p hp
      obtain ⟨as, rest, rfl, has, hrest⟩ := List.map_eq_append_iff.mp hp
      obtain ⟨y, bs, rfl, hy, -⟩ := List.map_eq_cons_iff.mp hrest
      obtain rfl : y = user := (str_inj (hxs y (by simp)) huser).mp hy
      exact ⟨as, bs, rfl, has⟩
    rcases haround.1 with rfl | ⟨z, -, rfl⟩
    · rw [List.nil_append, hq] at hsplit
      obtain ⟨as, bs, hxs', has⟩ := hitems [] hsplit
      obtain rfl := List.map_eq_nil_iff.mp has
      exact ⟨[], bs, hxs', rfl⟩
    · rw [List.append_assoc, List.singleton_append, List.splitOn_append_cons_self, hq] at hsplit
      obtain ⟨as, bs, hxs', has⟩ := hitems _ hsplit
      have hz : commaJoin as = z := by rw [commaJoin, has, List.intercalate_splitOn]
      have hne' : as ≠ [] := by
        rintro rfl
        exact absurd has.symm (List.splitOn_ne_nil _ _)
      exact ⟨as, bs, hxs', by rw [before_eq hne', hz]⟩
  obtain ⟨as, bs, rfl, rfl⟩ := hplace
  rw [commaJoin_append] at heq
  exact ⟨as, bs, rfl, rfl, (List.append_cancel_left (List.append_cancel_left heq)).symm⟩

end Items

/-! ### The script on a list -/

/-- The text of a member list. -/
def MemberList.render (m : MemberList) : Bytes := commaJoin m.items

/-- The items of a member list are fields. -/
def MemberList.IsText (m : MemberList) : Prop := ∀ x ∈ m.items, isField x = true

section Lists

variable {g user : Name} {h : Bytes} {m : MemberList}

/-- The text of a list has the bytes of its items, and commas. -/
theorem notMem_render (hm : m.IsText) {b : UInt8} (hb : b.toNat ∈ [10, 58]) :
    b ∉ m.render := by
  have hitem : ∀ x ∈ m.items, b ∉ str x := fun x hx ↦ notMem_str (hm x hx) (by simp at hb ⊢; omega)
  have hcomma : b ≠ 44 := by
    rintro rfl
    exact absurd hb (by decide)
  rw [MemberList.render, MemberList.items, commaJoin_cons, List.mem_append, not_or]
  refine ⟨hitem _ (by simp [MemberList.items]), fun hmem ↦ ?_⟩
  obtain ⟨x, hx, hbx⟩ := List.mem_flatMap.mp hmem
  rcases List.mem_cons.mp hbx with rfl | hbx
  · exact hcomma rfl
  · exact hitem x (by simp [MemberList.items, hx]) hbx

-- No place of an item comes behind the last one.
private theorem prefix_of_last {u : String} {as as' bs bs' : List String} (hbs : u ∉ bs)
    (heq : as ++ u :: bs = as' ++ u :: bs') : as' <+: as := by
  rcases List.append_eq_append_iff.mp heq with ⟨cs, rfl, hcs⟩ | ⟨cs, rfl, -⟩
  · cases cs with
    | nil => simp
    | cons c cs =>
      obtain ⟨-, rfl⟩ := List.cons.inj hcs
      simp at hbs
  · exact List.prefix_append _ _

/-- The first substitution removes the user from the list. -/
theorem cutMember_render (hm : m.IsText)
    (hbegins : begins (str g.val) (h ++ 58 :: m.render) = true)
    (hlen : (str g.val).length < h.length) :
    cutMember (str g.val) (str user.val) (h ++ 58 :: m.render) =
      h ++ 58 :: (m.removeUser user).render := by
  obtain ⟨huser, hdot⟩ := isField_of_isName user.property
  have hu : str user.val ≠ [] := fun hnil ↦ user.ne_empty (str_eq_nil.mp hnil)
  have hcolon : 58 ∉ str user.val := notMem_str huser (by decide)
  have hlist : 58 ∉ m.render := notMem_render hm (by decide)
  have hne : m.items ≠ [] := by simp [MemberList.items]
  by_cases hmem : user.val ∈ m.items
  · obtain ⟨as, bs, hitems, hbs⟩ := MemberList.exists_last hmem
    by_cases has : as = [""]
    · subst has
      rw [MemberList.removeUser_of_second user.ne_empty hitems hbs]
      refine cutMember_eq_self hu hdot hcolon hlist hbegins hlen ?_
      intro a s heq haround
      obtain ⟨as', bs', hitems', rfl, rfl⟩ := exists_of_commaJoin hm hne huser heq haround
      rw [hitems] at hitems'
      have hstart := prefix_of_last hbs hitems'
      cases as' with
      | nil => exact user.ne_empty (List.cons.inj hitems').1.symm
      | cons y as' =>
        obtain ⟨rfl, hnil⟩ := List.cons_prefix_cons.mp hstart
        obtain rfl := List.prefix_nil.mp hnil
        exact around_iff.mp haround rfl
    · have hrender : m.render = before as ++ (str user.val ++ behind bs) := by
        rw [MemberList.render, hitems, commaJoin_append]
      have hremoved : (m.removeUser user).render = before as ++ behind bs := by
        rw [MemberList.render, MemberList.items_removeUser user.ne_empty hitems has hbs,
          commaJoin_append]
        rfl
      rw [hremoved]
      rw [hrender] at hlist hbegins ⊢
      refine cutMember_eq hu hdot hcolon hlist hbegins hlen (around_iff.mpr has) ?_
      intro a s heq haround
      obtain ⟨as', bs', hitems', rfl, rfl⟩ :=
        exists_of_commaJoin hm hne huser (hrender.trans heq) haround
      obtain ⟨cs, rfl⟩ := prefix_of_last hbs (hitems.symm.trans hitems')
      simp [before]
  · rw [MemberList.removeUser_of_notMem hmem]
    refine cutMember_eq_self hu hdot hcolon hlist hbegins hlen ?_
    intro a s heq haround
    obtain ⟨as', bs', hitems', -⟩ := exists_of_commaJoin hm hne huser heq haround
    exact hmem (by simp [hitems'])

/-- The second substitution appends the user to the list. -/
theorem render_appendUser : m.render ++ 44 :: str user.val = (m.appendUser user).render := by
  simp [MemberList.render, MemberList.items, MemberList.appendUser, commaJoin_cons, behind]

private theorem dropWhile_str {x : String} (hx : (44 : UInt8) ∉ str x) (hne : x ≠ "") (t : Bytes) :
    (str x ++ t).dropWhile (· = 44) = str x ++ t := by
  obtain ⟨b, bs, hb⟩ := List.exists_cons_of_ne_nil fun hnil ↦ hne (str_eq_nil.mp hnil)
  rw [hb, List.mem_cons, not_or] at hx
  rw [hb, List.cons_append, List.dropWhile_cons_of_neg (by simpa using Ne.symm hx.1)]

-- The commas at the start of a text are empty items.
private theorem dropWhile_commaJoin {xs : List String} (hxs : ∀ x ∈ xs, (44 : UInt8) ∉ str x) :
    (commaJoin xs).dropWhile (· = 44) = commaJoin (MemberList.squeezeRest xs) := by
  induction xs with
  | nil => rfl
  | cons x xs ih =>
    rw [List.forall_mem_cons] at hxs
    cases xs with
    | nil =>
      rw [commaJoin_cons, MemberList.squeezeRest]
      · by_cases hx : x = ""
        · subst hx
          rfl
        · rw [dropWhile_str hxs.1 hx, commaJoin_cons]
      · simp
    | cons y xs =>
      rw [MemberList.squeezeRest]
      split
      · next hx =>
        subst hx
        rw [← ih hxs.2, commaJoin_cons_of_ne_nil (by simp)]
        rfl
      · next hx => rw [commaJoin_cons, dropWhile_str hxs.1 hx]

/-- The third substitution squeezes the list. -/
theorem squeezeRun_render (hm : m.IsText) :
    squeezeRun 44 m.render = m.squeeze.render := by
  have hcomma : ∀ x ∈ m.items, (44 : UInt8) ∉ str x := fun x hx ↦ notMem_str (hm x hx) (by decide)
  rcases m with ⟨first, rest⟩
  simp only [MemberList.items, List.forall_mem_cons] at hcomma
  simp only [MemberList.render, MemberList.items, MemberList.squeeze]
  cases rest with
  | nil =>
    refine squeezeRun_of_notMem ?_
    simpa [commaJoin] using hcomma.1
  | cons x xs =>
    have hne := MemberList.squeezeRest_ne_nil (List.cons_ne_nil x xs)
    have hrun : ∀ t : Bytes, squeezeRun 44 (44 :: t) = 44 :: t.dropWhile (· = 44) := by
      intro t
      simp [squeezeRun]
    rw [commaJoin_cons_of_ne_nil (by simp), commaJoin_cons_of_ne_nil hne,
      squeezeRun_append_of_notMem hcomma.1, hrun, dropWhile_commaJoin hcomma.2]

-- A comma at the start of the list.
private theorem render_eq_cons (hdrop : m.first = "" ∧ m.rest ≠ []) :
    m.render = 44 :: m.dropComma.render := by
  rcases m with ⟨first, rest⟩
  obtain ⟨rfl, hne⟩ := hdrop
  obtain ⟨x, xs, rfl⟩ := List.exists_cons_of_ne_nil hne
  simp only [MemberList.render, MemberList.items, MemberList.dropComma, if_true]
  rw [commaJoin_cons_of_ne_nil (by simp)]
  rfl

private theorem dropComma_eq_self (hkeep : ¬ (m.first = "" ∧ m.rest ≠ [])) : m.dropComma = m := by
  unfold MemberList.dropComma
  split
  · rfl
  · next x xs hrest =>
    rw [if_neg fun hfirst ↦ hkeep ⟨hfirst, by simp [hrest]⟩]

-- No comma at the start of the list.
private theorem no_comma_first (hm : m.IsText) (hkeep : ¬ (m.first = "" ∧ m.rest ≠ [])) :
    ¬ [58, 44] <:+: 58 :: m.render := by
  have hcolon : 58 ∉ m.render := notMem_render hm (by decide)
  rw [List.infix_cons_iff, not_or]
  refine ⟨fun hstart ↦ ?_, fun hpart ↦ hcolon (hpart.subset (by simp))⟩
  have hcomma : [44] <+: m.render := (List.cons_prefix_cons.mp hstart).2
  rcases m with ⟨first, rest⟩
  rw [MemberList.render, MemberList.items, commaJoin_cons] at hcomma
  by_cases hempty : first = ""
  · have hrest : rest = [] := by
      by_contra hne
      exact hkeep ⟨hempty, hne⟩
    rw [hempty, hrest] at hcomma
    exact absurd hcomma (by decide)
  · have hfirst : (44 : UInt8) ∉ str first := notMem_str (hm first List.mem_cons_self) (by decide)
    obtain ⟨b, bs, hb⟩ := List.exists_cons_of_ne_nil fun hnil ↦ hempty (str_eq_nil.mp hnil)
    rw [hb, List.cons_append] at hcomma
    rw [hb, List.mem_cons, not_or] at hfirst
    exact hfirst.1 (List.cons_prefix_cons.mp hcomma).1

/-- The last substitution drops a comma at the start of the list. -/
theorem dropBehind_render (hm : m.IsText) :
    dropBehind 58 44 (58 :: m.render) = 58 :: m.dropComma.render := by
  by_cases hdrop : m.first = "" ∧ m.rest ≠ []
  · rw [render_eq_cons hdrop]
    rfl
  · rw [dropComma_eq_self hdrop, dropBehind_eq_self (no_comma_first hm hdrop)]

/-- The last substitution drops a comma at the start of the list, or the next one. -/
theorem dropBehind_render_append (hm : m.IsText) (s : Bytes) :
    dropBehind 58 44 (58 :: (m.render ++ 58 :: s)) =
      if m.first = "" ∧ m.rest ≠ [] then 58 :: (m.dropComma.render ++ 58 :: s)
      else 58 :: (m.render ++ dropBehind 58 44 (58 :: s)) := by
  split
  · next hdrop =>
    rw [render_eq_cons hdrop]
    rfl
  · next hkeep =>
    rw [← List.cons_append, dropBehind_append ?_, List.cons_append]
    rw [List.infix_concat_iff, List.suffix_concat_iff, not_or]
    refine ⟨?_, no_comma_first hm hkeep⟩
    rintro (hnil | ⟨t, ht, -⟩)
    · cases hnil
    · exact absurd (congrArg List.getLast? ht) (by simp)

/-- Removing a user leaves fields. -/
theorem MemberList.IsText.removeUser (hm : m.IsText) : (m.removeUser user).IsText := by
  by_cases hmem : user.val ∈ m.items
  · obtain ⟨as, bs, hitems, hbs⟩ := MemberList.exists_last hmem
    by_cases has : as = [""]
    · subst has
      rwa [MemberList.removeUser_of_second user.ne_empty hitems hbs]
    · rw [MemberList.IsText, hitems] at hm
      rw [MemberList.IsText, MemberList.items_removeUser user.ne_empty hitems has hbs]
      intro x hx
      rcases List.mem_append.mp hx with hx | hx
      · exact hm x (by simp [hx])
      · rcases List.mem_cons.mp hx with rfl | hx
        · rfl
        · exact hm x (by simp [hx])
  · rwa [MemberList.removeUser_of_notMem hmem]

/-- Appending a user leaves fields. -/
theorem MemberList.IsText.appendUser (hm : m.IsText) : (m.appendUser user).IsText := by
  intro x hx
  simp only [MemberList.items, MemberList.appendUser, ← List.cons_append] at hx
  rcases List.mem_append.mp hx with hx | hx
  · exact hm x hx
  · rw [List.mem_singleton.mp hx]
    exact (isField_of_isName user.property).1

/-- Dropping a comma leaves fields. -/
theorem MemberList.IsText.dropComma (hm : m.IsText) : m.dropComma.IsText := by
  unfold MemberList.dropComma
  split
  · exact hm
  · next x xs hrest =>
    split
    · intro y hy
      exact hm y (List.mem_cons_of_mem _ (hrest ▸ hy))
    · exact hm

/-- Squeezing leaves fields. -/
theorem MemberList.IsText.squeeze (hm : m.IsText) : m.squeeze.IsText := by
  intro x hx
  have hsub : ∀ xs : List String, MemberList.squeezeRest xs ⊆ xs := by
    intro xs
    fun_induction MemberList.squeezeRest xs with
    | case1 y xs ih => exact List.Subset.trans ih (List.subset_cons_self _ _)
    | case2 x y xs hx => exact List.Subset.refl _
    | case3 xs hxs => exact List.Subset.refl _
  rcases List.mem_cons.mp hx with rfl | hx
  · exact hm _ List.mem_cons_self
  · exact hm x (List.mem_cons_of_mem _ (hsub _ hx))

end Lists

/-! ### The script on a line -/

/-- The text of a line of `/etc/group`. -/
def GroupLine.render (l : GroupLine) : Bytes :=
  str l.name ++ 58 :: (str l.passwd ++ 58 :: (showNat l.gid ++ 58 :: l.members.render))

/-- The text of a line of `/etc/gshadow`. -/
def GshadowLine.render (l : GshadowLine) : Bytes :=
  str l.name ++ 58 :: (str l.passwd ++ 58 :: (l.admins.render ++ 58 :: l.members.render))

/-- The parts of a line of `/etc/group` are fields. -/
structure GroupLine.IsText (l : GroupLine) : Prop where
  name : isField l.name = true
  passwd : isField l.passwd = true
  members : l.members.IsText

/-- The parts of a line of `/etc/gshadow` are fields. -/
structure GshadowLine.IsText (l : GshadowLine) : Prop where
  name : isField l.name = true
  passwd : isField l.passwd = true
  admins : l.admins.IsText
  members : l.members.IsText

section Lines

variable {group user : Name} {name : String} {p : Bytes} {m : MemberList}

/-- The pattern of a group finds the lines with its name. -/
theorem begins_str (hname : isField name = true) (s : Bytes) :
    begins (str group.val) (str name ++ 58 :: s) = true ↔ name = group := by
  obtain ⟨hgroup, hdot⟩ := isField_of_isName group.property
  rw [begins_iff_of_noDot (notMem_str hgroup (by decide)) hdot,
    nameOf_append (notMem_str hname (by decide)), str_inj hname hgroup]
  simp

/-- The first two substitutions, on a line that ends in a member list. -/
theorem appendMember_cutMember (group user : Name) (p : Bytes) (hname : isField name = true)
    (hm : m.IsText) :
    appendMember (str group.val) (str user.val) (cutMember (str group.val) (str user.val)
        (str name ++ 58 :: (p ++ 58 :: m.render))) =
      str name ++ 58 :: (p ++ 58 ::
        (if name = group.val then (m.removeUser user).appendUser user else m).render) := by
  have hassoc : ∀ f : Bytes, str name ++ 58 :: (p ++ 58 :: f) = (str name ++ 58 :: p) ++ 58 :: f :=
    fun f ↦ by simp
  by_cases hgroup : name = group.val
  · have hlen : (str group.val).length < (str name ++ 58 :: p).length := by
      rw [hgroup, List.length_append, List.length_cons]
      omega
    have hbegins : ∀ f, begins (str group.val) (str name ++ 58 :: (p ++ 58 :: f)) = true :=
      fun f ↦ (begins_str hname _).mpr hgroup
    rw [if_pos hgroup, hassoc, cutMember_render hm (hassoc _ ▸ hbegins _) hlen, ← hassoc,
      appendMember, if_pos (hbegins _), ← render_appendUser]
    simp
  · have hbegins : begins (str group.val) (str name ++ 58 :: (p ++ 58 :: m.render)) = false := by
      rw [Bool.eq_false_iff, ne_eq, begins_str hname]
      exact hgroup
    rw [if_neg hgroup, cutMember_of_not_begins _ hbegins, appendMember, hbegins]
    simp

-- Without a comma, there is none behind a colon.
private theorem no_comma_behind {h : Bytes} (hcomma : 44 ∉ h) : ¬ [58, 44] <:+: h ++ [58] := by
  intro hpart
  have hmem : (44 : UInt8) ∈ h ++ [58] := hpart.subset (by simp)
  simp [hcomma] at hmem

/-- The last two substitutions tidy up the list, if there is no comma before it. -/
theorem tidy_render {h : Bytes} (hcomma : 44 ∉ h) (hm : m.IsText) :
    dropBehind 58 44 (squeezeRun 44 (h ++ 58 :: m.render)) =
      h ++ 58 :: m.squeeze.dropComma.render := by
  have hline : h ++ 58 :: m.render = (h ++ [58]) ++ m.render := by simp
  have hcomma' : (44 : UInt8) ∉ h ++ [58] := by simp [hcomma]
  rw [hline, squeezeRun_append_of_notMem hcomma', squeezeRun_render hm, List.append_assoc,
    List.singleton_append, dropBehind_append (no_comma_behind hcomma), dropBehind_render hm.squeeze]

private theorem isText_edited (name : String) (group user : Name) (hm : m.IsText) :
    (if name = group.val then (m.removeUser user).appendUser user else m).IsText := by
  split
  · exact hm.removeUser.appendUser
  · exact hm

private theorem comma_notMem_head (hname : isField name = true) {passwd : String}
    (hpasswd : isField passwd = true) (hp : 44 ∉ p) :
    44 ∉ str name ++ 58 :: (str passwd ++ 58 :: p) := by
  simp only [List.mem_append, List.mem_cons, not_or]
  exact ⟨notMem_str hname (by decide), by decide, notMem_str hpasswd (by decide), by decide, hp⟩

/-- On a line of `/etc/group` the script edits the record. -/
theorem editLine_render {l : GroupLine} (hl : l.IsText) :
    editLine (str group.val) (str user.val) l.render = (editGroupLine user group l).render := by
  have happend := appendMember_cutMember group user (str l.passwd ++ 58 :: showNat l.gid) hl.name
    hl.members
  have hcomma : 44 ∉ str l.name ++ 58 :: (str l.passwd ++ 58 :: showNat l.gid) :=
    comma_notMem_head hl.name hl.passwd (notMem_showNat (by decide) l.gid)
  have htidy := tidy_render hcomma (isText_edited l.name group user hl.members)
  simp only [List.append_assoc, List.cons_append] at happend htidy
  rw [editLine, GroupLine.render, happend, htidy]
  rfl

/-- On a line of `/etc/gshadow` the script edits the record. -/
theorem editLine_gshadow {l : GshadowLine} (hl : l.IsText) :
    editLine (str group.val) (str user.val) l.render = (editGshadowLine user group l).render := by
  have happend := appendMember_cutMember group user (str l.passwd ++ 58 :: l.admins.render) hl.name
    hl.members
  simp only [List.append_assoc, List.cons_append] at happend
  rw [editLine, GshadowLine.render, happend, editGshadowLine]
  have hm := isText_edited l.name group user hl.members
  generalize (if l.name = group.val then (l.members.removeUser user).appendUser user
    else l.members) = m at hm
  by_cases hrest : l.admins.rest = []
  · have hadmins : 44 ∉ l.admins.render := by
      rw [MemberList.render, MemberList.items, hrest, commaJoin_cons]
      simpa [behind] using notMem_str (hl.admins _ List.mem_cons_self) (by decide)
    have htidy := tidy_render (comma_notMem_head hl.name hl.passwd hadmins) hm
    simp only [List.append_assoc, List.cons_append] at htidy
    rw [htidy]
    simp [GshadowLine.squeeze, GshadowLine.dropComma, GshadowLine.render, hrest]
  · -- the first run of commas is among the administrators
    have hmem : 44 ∈ l.admins.render := by
      obtain ⟨x, xs, hx⟩ := List.exists_cons_of_ne_nil hrest
      rw [MemberList.render, MemberList.items, hx, commaJoin_cons_of_ne_nil (by simp)]
      simp
    have hcomma := comma_notMem_head (p := []) hl.name hl.passwd (by simp)
    have hline : ∀ s : Bytes, str l.name ++ 58 :: (str l.passwd ++ 58 :: s) =
        (str l.name ++ 58 :: (str l.passwd ++ [58])) ++ s := fun s ↦ by simp
    have hhead : ∀ s : Bytes, (str l.name ++ 58 :: (str l.passwd ++ [58])) ++ s =
        (str l.name ++ 58 :: str l.passwd) ++ 58 :: s := fun s ↦ by simp
    have hno : 44 ∉ str l.name ++ 58 :: str l.passwd := by
      simp only [List.mem_append, List.mem_cons, not_or] at hcomma ⊢
      exact ⟨hcomma.1, hcomma.2.1, hcomma.2.2.1⟩
    rw [hline, squeezeRun_append_of_notMem hcomma, squeezeRun_append_cons hmem (by decide),
      squeezeRun_render hl.admins, hhead, dropBehind_append (no_comma_behind hno),
      dropBehind_render_append hl.admins.squeeze, dropBehind_render hm]
    simp only [GshadowLine.squeeze, GshadowLine.dropComma, if_neg hrest]
    split
    · simp [GshadowLine.render]
    · simp [GshadowLine.render]

/-- An edit leaves a line of `/etc/group` a text. -/
theorem GroupLine.IsText.edit {l : GroupLine} (hl : l.IsText) :
    (editGroupLine user group l).IsText :=
  ⟨hl.name, hl.passwd, (isText_edited l.name group user hl.members).squeeze.dropComma⟩

/-- An edit leaves a line of `/etc/gshadow` a text. -/
theorem GshadowLine.IsText.edit {l : GshadowLine} (hl : l.IsText) :
    (editGshadowLine user group l).IsText := by
  have hm := isText_edited l.name group user hl.members
  have hsqueeze : ∀ k : GshadowLine, k.IsText → k.squeeze.IsText := by
    intro k hk
    unfold GshadowLine.squeeze
    split
    · exact ⟨hk.name, hk.passwd, hk.admins, hk.members.squeeze⟩
    · exact ⟨hk.name, hk.passwd, hk.admins.squeeze, hk.members⟩
  have hdrop : ∀ k : GshadowLine, k.IsText → k.dropComma.IsText := by
    intro k hk
    unfold GshadowLine.dropComma
    split
    · exact ⟨hk.name, hk.passwd, hk.admins.dropComma, hk.members⟩
    · exact ⟨hk.name, hk.passwd, hk.admins, hk.members.dropComma⟩
  exact hdrop _ (hsqueeze _ ⟨hl.name, hl.passwd, hl.admins, hm⟩)

/-- A line of `/etc/group` is one line. -/
theorem newline_notMem_group {l : GroupLine} (hl : l.IsText) : newline ∉ l.render := by
  have hdigit : newline ∉ showNat l.gid := notMem_showNat (by decide) l.gid
  simp only [GroupLine.render, List.mem_append, List.mem_cons, not_or]
  exact ⟨notMem_str hl.name (by decide), by decide, notMem_str hl.passwd (by decide), by decide,
    hdigit, by decide, notMem_render hl.members (by decide)⟩

/-- A line of `/etc/gshadow` is one line. -/
theorem newline_notMem_gshadow {l : GshadowLine} (hl : l.IsText) : newline ∉ l.render := by
  simp only [GshadowLine.render, List.mem_append, List.mem_cons, not_or]
  exact ⟨notMem_str hl.name (by decide), by decide, notMem_str hl.passwd (by decide), by decide,
    notMem_render hl.admins (by decide), by decide, notMem_render hl.members (by decide)⟩

end Lines

/-! ### The script on the files -/

/-- The group files hold the texts of the records. -/
structure Renders (t : Target) (b : Text.Target) : Prop where
  group : b.group = unlines (t.group.map GroupLine.render)
  gshadow : b.gshadow = t.gshadow.map fun ls ↦ unlines (ls.map GshadowLine.render)
  groupText : ∀ l ∈ t.group, l.IsText
  gshadowText : ∀ ls ∈ t.gshadow, ∀ l ∈ ls, l.IsText

section Files

variable {t : Target} {b : Text.Target}

private theorem editFile_unlines {α : Type} {render : α → Bytes} {edit : α → α} {g u : Bytes}
    {ls : List α} (hline : ∀ l ∈ ls, newline ∉ render l)
    (hedit : ∀ l ∈ ls, editLine g u (render l) = render (edit l)) :
    Text.editFile u g (unlines (ls.map render)) = unlines ((ls.map edit).map render) := by
  have hlines : ∀ k ∈ ls.map render, newline ∉ k := by
    intro k hk
    obtain ⟨l, hl, rfl⟩ := List.mem_map.mp hk
    exact hline l hl
  have hsed := sed_unlines_append (fun l ↦ some (editLine g u l)) hlines (r := []) (by simp)
  rw [List.append_nil] at hsed
  have hmap : (ls.map render).map (editLine g u) = (ls.map edit).map render := by
    rw [List.map_map, List.map_map]
    exact List.map_congr_left hedit
  rw [Text.editFile, hsed, List.filterMap_eq_map', hmap]
  simp [rest]

/-- On the bytes of the group files, `add_user_to_group` edits the records. -/
theorem Renders.addUserToGroup (h : Renders t b) (user group : Name) :
    Renders (MkUsers.addUserToGroup user group t)
      (Text.addUserToGroup (str user.val) (str group.val) b) where
  group := by
    rw [Text.addUserToGroup, h.group]
    exact editFile_unlines (fun l hl ↦ newline_notMem_group (h.groupText l hl))
      fun l hl ↦ editLine_render (h.groupText l hl)
  gshadow := by
    simp only [Text.addUserToGroup, MkUsers.addUserToGroup, h.gshadow, Option.map_map]
    refine Option.map_congr fun ls hls ↦ ?_
    exact editFile_unlines (fun l hl ↦ newline_notMem_gshadow (h.gshadowText ls hls l hl))
      fun l hl ↦ editLine_gshadow (h.gshadowText ls hls l hl)
  groupText l hl := by
    obtain ⟨k, hk, rfl⟩ := List.mem_map.mp hl
    exact (h.groupText k hk).edit
  gshadowText ls hls l hl := by
    obtain ⟨ks, hks, rfl⟩ := Option.map_eq_some_iff.mp hls
    obtain ⟨k, hk, rfl⟩ := List.mem_map.mp hl
    exact (h.gshadowText ks hks k hk).edit

/-- So do the calls for several groups. -/
theorem Renders.foldl_addUserToGroup (h : Renders t b) (user : Name) (groups : List Name) :
    Renders (groups.foldl (fun t g ↦ MkUsers.addUserToGroup user g t) t)
      (groups.foldl (fun b g ↦ Text.addUserToGroup (str user.val) (str g.val) b) b) := by
  induction groups generalizing t b with
  | nil => exact h
  | cons g groups ih => exact ih (h.addUserToGroup user g)

end Files

end MotionPie.Support.MkUsers
