import MotionPie.Shell.Source

/-!
# Words without quotes around them

What `source` does with `NAME=word` for any word: quotes and backslashes are removed, parameters and
tilde-prefixes are expanded. A word is bound to itself, whatever the variables and the home
directories are, if and only if it has nothing of that in it.
-/

namespace MotionPie.Shell

open Base

/-- The directories that tilde-prefixes stand for. -/
abbrev Homes := Bytes → Option Bytes

/-- A byte that ends a word: a blank or an operator. -/
def endsWord (b : UInt8) : Bool :=
  b = 9 || b = 32 || b = 38 || b = 40 || b = 41 || b = 59 || b = 60 || b = 62 || b = 124

/-- A byte that quotes the bytes behind it. -/
def quotes (b : UInt8) : Bool := b = 34 || b = 39 || b = 92

/-- The name behind a tilde, up to a slash or a colon. -/
def loginName (s : Bytes) : Bytes := s.takeWhile fun b ↦ !(b = 47 || b = 58 || endsWord b)

/-- The directory that a tilde stands for. None of its name may be quoted. -/
def homeOf (homes : Homes) (s : Bytes) : Option Bytes :=
  if (loginName s).any quotes then none else homes (loginName s)

/-- The value of a word. The flag says whether a tilde is expanded here, the number is how many bytes
have been taken already. There is no value when something is left of the line behind the word, when
the word goes on in the next line, and for a command, a longer expansion, `$'` and `$"`. -/
def word (homes : Homes) (vars : Vars) : Bool → Nat → Bytes → Option Bytes
  | _, _, [] => some []
  | start, k + 1, _ :: s => word homes vars start k s
  | start, 0, b :: s =>
    let text (v : Bytes) (r : Option Bytes) := r.map (v ++ ·)
    if endsWord b || b = 96 then none
    else if b = 39 then
      let t := s.takeWhile (· ≠ 39)
      if t.length < s.length then text t (word homes vars false (t.length + 1) s) else none
    else if b = 34 then
      match quoted vars 0 s with
      | some (v, r) => text v (word homes vars false (s.length - r.length) s)
      | none => none
    else if b = 92 then
      if s = [] then none else text (s.take 1) (word homes vars false 1 s)
    else if b = 36 then
      if opens s || s.head? = some 34 || s.head? = some 39 then none
      else match parameter s with
        | some n => text (vars n) (word homes vars false n.length s)
        | none => text [b] (word homes vars false 0 s)
    else if b = 126 && start then
      match homeOf homes s with
      | some dir => text dir (word homes vars false (loginName s).length s)
      | none => text [b] (word homes vars false 0 s)
    else text [b] (word homes vars (b = 58) 0 s)

/-- A line of the file. -/
def assignWord (homes : Homes) (vars : Vars) (line : Bytes) : Option Vars :=
  if line = [] ∨ line.head? = some 35 then some vars
  else
    let name := line.takeWhile isWord
    if name = [] ∨ name.head?.any isDigit then none
    else match line.dropWhile isWord with
      | 61 :: t => (word homes vars true 0 t).map (Function.update vars name)
      | _ => none

/-- `source`. The shell leaves out NULs. -/
def sourceWords (homes : Homes) (vars : Vars) (content : Bytes) : Option Vars :=
  (lines (content.filter (· ≠ 0))).foldlM (assignWord homes) vars

/-! ### Bare words -/

/-- A byte that the shell may replace or remove. -/
def isMarked (b : UInt8) : Bool := quotes b || b = 36 || b = 96 || b = 126

/-- Whether something is expanded or quoted behind a dollar sign. -/
def expands (s : Bytes) : Bool :=
  opens s || s.head? = some 34 || s.head? = some 39 || (parameter s).isSome

/-- A word in which nothing is quoted or expanded. The flag says whether a tilde would be expanded at
its start. -/
def Bare : Bool → Bytes → Prop
  | _, [] => True
  | start, b :: s =>
    endsWord b = false ∧ quotes b = false ∧ b ≠ 96 ∧ (b = 36 → expands s = false) ∧
      ¬ (b = 126 ∧ start = true) ∧ Bare (b = 58) s

variable {homes : Homes} {vars : Vars} {start : Bool} {b : UInt8} {s t u v : Bytes}

/-- A bare word has no byte that quotes. -/
theorem Bare.quotes_eq_false (h : Bare start s) : ∀ b ∈ s, quotes b = false := by
  induction s generalizing start with
  | nil => exact fun _ hb ↦ by cases hb
  | cons b s ih =>
    obtain ⟨-, hb, -, -, -, hs⟩ := h
    exact List.forall_mem_cons.mpr ⟨hb, ih hs⟩

/-- A byte of a word that stands for itself. -/
theorem word_cons (hends : endsWord b = false) (hquotes : quotes b = false) (hback : b ≠ 96)
    (hdollar : b = 36 → expands s = false)
    (htilde : b = 126 → start = true → homeOf homes s = none) :
    word homes vars start 0 (b :: s) = (word homes vars (b = 58) 0 s).map (b :: ·) := by
  simp only [quotes, Bool.or_eq_false_iff, decide_eq_false_iff_not] at hquotes
  obtain ⟨⟨hdouble, hsingle⟩, hescape⟩ := hquotes
  have hplain : ¬ (endsWord b || decide (b = 96)) = true := by simp [hends, hback]
  rw [word, if_neg hplain, if_neg hsingle, if_neg hdouble, if_neg hescape]
  split
  · next hb =>
    subst hb
    have hnone := hdollar rfl
    simp only [expands, Bool.or_eq_false_iff, Option.isSome_eq_false_iff,
      Option.isNone_iff_eq_none] at hnone
    obtain ⟨⟨⟨hopens, hdouble'⟩, hsingle'⟩, hparameter⟩ := hnone
    rw [hopens, hdouble', hsingle', hparameter]
    rfl
  · split
    · next htildeStart =>
      obtain ⟨hb, hstart⟩ : b = 126 ∧ start = true := by simpa using htildeStart
      rw [htilde hb hstart, hb]
      rfl
    · rfl

/-- A bare word is its own value. -/
theorem word_bare (h : Bare start s) : word homes vars start 0 s = some s := by
  induction s generalizing start with
  | nil => rw [word]
  | cons b s ih =>
    obtain ⟨hends, hquotes, hback, hdollar, htilde, hs⟩ := h
    rw [word_cons hends hquotes hback hdollar fun hb hstart ↦ absurd ⟨hb, hstart⟩ htilde, ih hs]
    rfl

/-! ### Marked bytes -/

/-- No variable has a marked byte in its value. -/
def Unmarked (vars : Vars) : Prop := ∀ n, (vars n).countP isMarked = 0

/-- What is known of the value of a word: it has fewer marked bytes, or the word is bare. -/
structure Loses (start : Bool) (t v : Bytes) : Prop where
  le : v.countP isMarked ≤ t.countP isMarked
  bare : t.countP isMarked ≤ v.countP isMarked → Bare start t ∧ v = t

/-- A part of the word that loses a marked byte. -/
theorem Loses.append (hcount : u.countP isMarked < s.countP isMarked) {start' : Bool}
    (h : Loses start' t v) : Loses start (s ++ t) (u ++ v) where
  le := by
    have hle := h.le
    simp only [List.countP_append]
    omega
  bare hge := by
    have hle := h.le
    simp only [List.countP_append] at hge
    omega

/-- A text between double quotes has no more marked bytes than it is written with. -/
theorem quoted_unmarked (hvars : Unmarked vars) {k : Nat} {r : Bytes}
    (h : quoted vars k s = some (v, r)) :
    ∃ t, s.drop k = t ++ 34 :: r ∧ v.countP isMarked ≤ t.countP isMarked := by
  induction s generalizing k v with
  | nil => cases k <;> cases h
  | cons b s ih =>
    cases k with
    | succ k => exact ih h
    | zero =>
      rw [List.drop_zero]
      rcases quoted_cases h with ⟨rfl, rfl, rfl⟩ | ⟨-, w, hw, rfl⟩ |
        ⟨rfl, c, u, rfl, -, w, hw, rfl⟩ | ⟨rfl, n, hn, w, hw, rfl⟩
      · exact ⟨[], rfl, le_rfl⟩
      · obtain ⟨t, ht, hcount⟩ := ih hw
        rw [List.drop_zero] at ht
        refine ⟨b :: t, congrArg (b :: ·) ht, ?_⟩
        simp only [List.countP_cons]
        omega
      · obtain ⟨t, ht, hcount⟩ := ih (k := 1) hw
        refine ⟨92 :: c :: t, congrArg ([92, c] ++ ·) ht, ?_⟩
        simp only [List.countP_cons]
        omega
      · obtain ⟨t, ht, hcount⟩ := ih hw
        obtain ⟨u, rfl⟩ := parameter_prefix hn
        rw [List.drop_left] at ht
        refine ⟨36 :: n ++ t, by rw [ht]; simp, ?_⟩
        have hzero := hvars n
        simp only [List.countP_append, List.countP_cons]
        omega

/-- Home directories for all names. -/
def everyHome : Homes := fun _ ↦ some []

/-- A step that takes some bytes and loses a marked one of them. -/
def Drops (vars : Vars) (s v : Bytes) : Prop :=
  ∃ k u w, word everyHome vars false k (s.drop 1) = some w ∧ v = u ++ w ∧
    u.countP isMarked < (s.take (k + 1)).countP isMarked

/-- A marked byte is lost when what is taken behind it does not grow. -/
theorem Drops.intro (hb : isMarked b = true) {k : Nat} {o : Option Bytes}
    (ho : o = word everyHome vars false k s) (hv : o.map (u ++ ·) = some v)
    (hcount : u.countP isMarked ≤ (s.take k).countP isMarked) : Drops vars (b :: s) v := by
  obtain ⟨w, hw, rfl⟩ := Option.map_eq_some_iff.mp hv
  refine ⟨k, u, w, ho ▸ hw, rfl, ?_⟩
  rw [List.take_succ_cons, List.countP_cons_of_pos hb]
  omega

theorem drops_single (h : word everyHome vars start 0 (39 :: s) = some v) :
    Drops vars (39 :: s) v := by
  have hplain : ¬ (endsWord 39 || decide ((39 : UInt8) = 96)) = true := by decide
  rw [word, if_neg hplain, if_pos rfl] at h
  simp only at h
  split at h
  · next hlength =>
    have hprefix : s.takeWhile (· ≠ 39) <+: s.take ((s.takeWhile (· ≠ 39)).length + 1) :=
      List.prefix_take_iff.mpr ⟨List.takeWhile_prefix _, by omega⟩
    exact .intro rfl rfl h hprefix.sublist.countP_le
  · cases h

theorem drops_double (hvars : Unmarked vars)
    (h : word everyHome vars start 0 (34 :: s) = some v) : Drops vars (34 :: s) v := by
  have hplain : ¬ (endsWord 34 || decide ((34 : UInt8) = 96)) = true := by decide
  rw [word, if_neg hplain, if_neg (by decide), if_pos rfl] at h
  cases hquoted : quoted vars 0 s with
  | none =>
    rw [hquoted] at h
    cases h
  | some q =>
    obtain ⟨u, r⟩ := q
    rw [hquoted] at h
    obtain ⟨t, ht, hcount⟩ := quoted_unmarked hvars hquoted
    rw [List.drop_zero] at ht
    have hlength : s.length - r.length = t.length + 1 := by
      rw [ht, List.length_append, List.length_cons]
      omega
    have hprefix : t <+: s.take (s.length - r.length) :=
      List.prefix_take_iff.mpr ⟨⟨34 :: r, ht.symm⟩, by omega⟩
    exact .intro rfl rfl h (hcount.trans hprefix.sublist.countP_le)

theorem drops_escape (h : word everyHome vars start 0 (92 :: s) = some v) :
    Drops vars (92 :: s) v := by
  have hplain : ¬ (endsWord 92 || decide ((92 : UInt8) = 96)) = true := by decide
  rw [word, if_neg hplain, if_neg (by decide), if_neg (by decide), if_pos rfl] at h
  split at h
  · cases h
  · exact .intro rfl rfl h le_rfl

/-- A dollar sign stands for itself, or it expands a parameter. -/
theorem word_dollar (hvars : Unmarked vars)
    (h : word everyHome vars start 0 (36 :: s) = some v) :
    Drops vars (36 :: s) v ∨
      expands s = false ∧ (word everyHome vars false 0 s).map (36 :: ·) = some v := by
  have hplain : ¬ (endsWord 36 || decide ((36 : UInt8) = 96)) = true := by decide
  rw [word, if_neg hplain, if_neg (by decide), if_neg (by decide), if_neg (by decide),
    if_pos rfl] at h
  split at h
  · cases h
  next hopens =>
  simp only [Bool.or_eq_true, decide_eq_true_eq, not_or, Bool.not_eq_true] at hopens
  cases hparameter : parameter s with
  | some n =>
    rw [hparameter] at h
    left
    apply Drops.intro rfl rfl h
    rw [hvars n]
    exact Nat.zero_le _
  | none =>
    rw [hparameter] at h
    exact .inr ⟨by simp [expands, hopens, hparameter], h⟩

/-- A tilde at the start stands for itself when its name is quoted. -/
theorem word_tilde (h : word everyHome vars true 0 (126 :: s) = some v) :
    Drops vars (126 :: s) v ∨
      (loginName s).any quotes = true ∧
        (word everyHome vars false 0 s).map (126 :: ·) = some v := by
  have hplain : ¬ (endsWord 126 || decide ((126 : UInt8) = 96)) = true := by decide
  rw [word, if_neg hplain, if_neg (by decide), if_neg (by decide), if_neg (by decide),
    if_neg (by decide), if_pos (by decide)] at h
  unfold homeOf at h
  by_cases hany : (loginName s).any quotes = true
  · rw [if_pos hany] at h
    exact .inr ⟨hany, h⟩
  · rw [if_neg hany] at h
    exact .inl (.intro rfl rfl h (Nat.zero_le _))

/-- What a step can do, when every tilde is expanded and no variable brings in marked bytes: take a
byte that stands for itself, or lose a marked byte. -/
theorem word_cases (hvars : Unmarked vars)
    (h : word everyHome vars start 0 (b :: s) = some v) :
    Drops vars (b :: s) v ∨
      endsWord b = false ∧ quotes b = false ∧ b ≠ 96 ∧ (b = 36 → expands s = false) ∧
        (b = 126 → start = true → (loginName s).any quotes = true) ∧
        (word everyHome vars (b = 58) 0 s).map (b :: ·) = some v := by
  by_cases hplain : (endsWord b || decide (b = 96)) = true
  · rw [word, if_pos hplain] at h
    cases h
  obtain ⟨hword, hback⟩ : endsWord b = false ∧ b ≠ 96 := by simpa using hplain
  by_cases hsingle : b = 39
  · exact .inl (hsingle ▸ drops_single (hsingle ▸ h))
  by_cases hdouble : b = 34
  · exact .inl (hdouble ▸ drops_double hvars (hdouble ▸ h))
  by_cases hescape : b = 92
  · exact .inl (hescape ▸ drops_escape (hescape ▸ h))
  have hquotes : quotes b = false := by simp [quotes, hsingle, hdouble, hescape]
  by_cases hdollar : b = 36
  · subst hdollar
    rcases word_dollar hvars h with hdrops | ⟨hexpands, hv⟩
    · exact .inl hdrops
    · exact .inr ⟨hword, hquotes, hback, fun _ ↦ hexpands, fun h ↦ absurd h (by decide), hv⟩
  by_cases htilde : b = 126 ∧ start = true
  · obtain ⟨rfl, rfl⟩ := htilde
    rcases word_tilde h with hdrops | ⟨hany, hv⟩
    · exact .inl hdrops
    · exact .inr ⟨hword, hquotes, hback, fun h ↦ absurd h hdollar, fun _ _ ↦ hany, hv⟩
  have hnot : ¬ (decide (b = 126) && start) = true := by simpa using htilde
  rw [word, if_neg hplain, if_neg hsingle, if_neg hdouble, if_neg hescape, if_neg hdollar,
    if_neg hnot] at h
  exact .inr ⟨hword, hquotes, hback, fun h ↦ absurd h hdollar,
    fun hb hstart ↦ absurd ⟨hb, hstart⟩ htilde, h⟩

/-- When every tilde is expanded and no variable brings in marked bytes, the value of a word that is
not bare has fewer of them. -/
theorem loses_of_word (hvars : Unmarked vars) {k : Nat}
    (h : word everyHome vars start k s = some v) : Loses start (s.drop k) v := by
  induction s generalizing start k v with
  | nil =>
    rw [word] at h
    cases h
    rw [List.drop_nil]
    exact ⟨le_rfl, fun _ ↦ ⟨trivial, rfl⟩⟩
  | cons b s ih =>
    cases k with
    | succ k =>
      rw [word] at h
      exact ih h
    | zero =>
      rw [List.drop_zero]
      rcases word_cases hvars h with ⟨k, u, w, hw, rfl, hcount⟩ |
        ⟨hends, hquotes, hback, hdollar, htilde, hv⟩
      · rw [← List.take_append_drop (k + 1) (b :: s), List.drop_succ_cons]
        exact .append hcount (ih hw)
      · obtain ⟨w, hw, rfl⟩ := Option.map_eq_some_iff.mp hv
        have hloses := ih hw
        rw [List.drop_zero] at hloses
        have hle := hloses.le
        refine ⟨by simp only [List.countP_cons]; omega, fun hge ↦ ?_⟩
        obtain ⟨hbare, rfl⟩ := hloses.bare (by simp only [List.countP_cons] at hge; omega)
        refine ⟨⟨hends, hquotes, hback, hdollar, ?_, hbare⟩, rfl⟩
        rintro ⟨rfl, rfl⟩
        obtain ⟨c, hc, hquote⟩ := List.any_eq_true.mp (htilde rfl rfl)
        rw [hbare.quotes_eq_false c ((List.takeWhile_prefix _).subset hc)] at hquote
        cases hquote

/-! ### Lines of the file -/

/-- A plain word is bare. -/
theorem bare_of_isPlain (h : ∀ b ∈ s, isPlain b = true) : Bare start s := by
  have hne : ∀ {b c : UInt8}, isPlain b = true → isPlain c = false → b ≠ c := by
    rintro b _ hb hc rfl
    rw [hb] at hc
    cases hc
  induction s generalizing start with
  | nil => trivial
  | cons b s ih =>
    rw [List.forall_mem_cons] at h
    refine ⟨?_, ?_, hne h.1 rfl, fun hb ↦ absurd hb (hne h.1 rfl),
      fun hb ↦ absurd hb.1 (hne h.1 rfl), ih h.2⟩
    · simp [endsWord, hne h.1 (show isPlain 9 = false from rfl),
        hne h.1 (show isPlain 32 = false from rfl), hne h.1 (show isPlain 38 = false from rfl),
        hne h.1 (show isPlain 40 = false from rfl), hne h.1 (show isPlain 41 = false from rfl),
        hne h.1 (show isPlain 59 = false from rfl), hne h.1 (show isPlain 60 = false from rfl),
        hne h.1 (show isPlain 62 = false from rfl), hne h.1 (show isPlain 124 = false from rfl)]
    · simp [quotes, hne h.1 (show isPlain 34 = false from rfl),
        hne h.1 (show isPlain 39 = false from rfl), hne h.1 (show isPlain 92 = false from rfl)]

/-- A line that sets a variable to a word. -/
theorem assignWord_eq {name : Bytes} (hname : isVariable name = true) (s : Bytes) :
    assignWord homes vars (name ++ 61 :: s) =
      (word homes vars true 0 s).map (Function.update vars name) := by
  obtain ⟨hline, hdigit, htake, hdrop⟩ := isVariable_line hname s
  rw [assignWord, if_neg hline, htake, hdrop, if_neg hdigit]
  rfl

/-- A line that sets a variable to a bare word. -/
theorem assignWord_bare {name : Bytes} (hname : isVariable name = true) (h : Bare true s) :
    assignWord homes vars (name ++ 61 :: s) = some (Function.update vars name s) := by
  rw [assignWord_eq hname, word_bare h]
  rfl

/-- Nothing is left of a word of which all bytes have been taken. -/
theorem word_of_length_le {k : Nat} (h : s.length ≤ k) : word homes vars start k s = some [] := by
  induction s generalizing k with
  | nil => rw [word]
  | cons b s ih =>
    obtain ⟨k, rfl⟩ : ∃ n, k = n + 1 := ⟨k - 1, by rw [List.length_cons] at h; omega⟩
    rw [word]
    exact ih (by rw [List.length_cons] at h; omega)

/-- A line that is understood without the words that have no quotes around them is understood in the
same way with them. -/
theorem assignWord_of_assignLine {line : Bytes} {vars' : Vars}
    (h : assignLine vars line = some vars') : assignWord homes vars line = some vars' := by
  unfold assignLine at h
  unfold assignWord
  split at h
  · next hline => rw [if_pos hline, h]
  next hline =>
  rw [if_neg hline]
  simp only at h ⊢
  split at h
  · cases h
  next hname =>
  rw [if_neg hname]
  split at h
  · next t hdrop =>
    rw [hdrop]
    cases hquoted : quoted vars 0 t with
    | none =>
      rw [hquoted] at h
      cases h
    | some q =>
      obtain ⟨v, r⟩ := q
      rw [hquoted] at h
      cases r with
      | cons b r => cases h
      | nil =>
        cases h
        have hword : word homes vars true 0 (34 :: t) = some v := by
          have hends : ¬ (endsWord 34 || decide ((34 : UInt8) = 96)) = true := by decide
          rw [word, if_neg hends, if_neg (by decide), if_pos rfl, hquoted]
          simp [word_of_length_le]
        simp only [hword, Option.map_some]
  · next v hdrop =>
    split at h
    · next hplain =>
      cases h
      simp only [hdrop, word_bare (bare_of_isPlain (List.all_eq_true.mp hplain)), Option.map_some]
    · cases h
  · cases h

/-- The lines of a file are run one by one. -/
theorem sourceWords_unlines {ls : List Bytes} (h : ∀ l ∈ ls, newline ∉ l) :
    sourceWords homes vars (unlines ls) =
      (ls.map (List.filter (· ≠ 0))).foldlM (assignWord homes) vars := by
  have hfilter : ∀ l ∈ ls.map (List.filter (· ≠ 0)), newline ∉ l := by
    intro l hl
    obtain ⟨m, hm, rfl⟩ := List.mem_map.mp hl
    exact fun hmem ↦ h m hm (List.mem_of_mem_filter hmem)
  rw [sourceWords, filter_unlines, lines_unlines hfilter]

end MotionPie.Shell
