import MotionPie.Base.Scanf

/-!
# Lines of the device table

`package/makedevs/makedevs.c:427-457`: a line is read by one `sscanf`, of which at least two
conversions must be made. The usage text of the program says that `-` may be used for blank
entries. The first `-` ends the scan, so what follows it is not read.
-/

namespace MotionPie.Package.Makedevs

open Base

/-- The variables of a line, `makedevs.c:429-439`. -/
structure Fields where
  name : Bytes
  type : UInt8
  mode : UInt32
  user : Bytes
  group : Bytes
  major : UInt32
  minor : UInt32
  start : UInt32
  increment : UInt32
  count : UInt32
  deriving DecidableEq

/-- The variables that a line does not set before it is scanned: whatever memory holds. -/
structure Memory where
  name : Bytes
  type : UInt8
  user : Bytes
  group : Bytes

/-- The variables before the scan. -/
def Memory.fields (memory : Memory) : Fields where
  name := memory.name
  type := memory.type
  mode := 0o755
  user := memory.user
  group := memory.group
  major := 0
  minor := 0
  start := 0
  increment := 0
  count := 0

/-- The stores of the last five conversions. -/
def numbers : List (UInt32 → Fields → Fields) :=
  [fun n v ↦ { v with major := n }, fun n v ↦ { v with minor := n },
    fun n v ↦ { v with start := n }, fun n v ↦ { v with increment := n },
    fun n v ↦ { v with count := n }]

/-- `"%4095s %c %o %40s %40s %u %u %u %u %u"`, `makedevs.c:445-447`. -/
def format : List (Conversion Fields) :=
  [scanString 4095 fun w v ↦ { v with name := w },
    scanChar fun c v ↦ { v with type := c },
    scanUnsigned 8 fun n v ↦ { v with mode := n },
    scanString 40 fun w v ↦ { v with user := w },
    scanString 40 fun w v ↦ { v with group := w }] ++ numbers.map (scanUnsigned 10)

/-- The largest number that a line may hold. -/
def maxNumber : UInt32 := 0xfffff

/-- What becomes of a line. -/
inductive Checked
  /-- A blank line or a comment. -/
  | skipped
  /-- `line %d invalid`. -/
  | invalid
  | accepted (v : Fields)
  deriving DecidableEq

/-- The check of a line, `makedevs.c:444-457`. -/
def check (memory : Memory) (line : Bytes) : Checked :=
  let (converted, v) := sscanf format line memory.fields
  if converted < 2 ∨ maxNumber < v.major ||| v.minor ||| v.start ||| v.count ||| v.increment then
    if line = [] ∨ line.head? = some 35 ∨ line.head?.any isSpace then .skipped else .invalid
  else if v.name.head? = some 35 then .skipped
  else .accepted v

/-! ### The documented form -/

/-- An entry behind the group: a number, or `-` for a blank one. -/
inductive Column
  | blank
  | digits (s : Bytes)
  deriving DecidableEq

/-- The text of an entry. -/
def Column.text : Column → Bytes
  | .blank => str "-"
  | .digits s => s

/-- The value of an entry; that of a blank one is the default. -/
def Column.value : Column → UInt32
  | .blank => 0
  | .digits s => UInt32.ofNat (digitsValue 10 s)

/-- The entry is blank. -/
def Column.isBlank : Column → Bool
  | .blank => true
  | .digits _ => false

/-- A line of the form `name type mode user group major minor start increment count`; `gaps` holds
the blanks before all fields but the name, `trail` what follows the last one. -/
structure Line where
  name : Bytes
  type : UInt8
  mode : Bytes
  user : Bytes
  group : Bytes
  columns : List Column
  gaps : List Bytes
  trail : Bytes

/-- The fields behind the name. -/
def Line.tokens (l : Line) : List Bytes :=
  [[l.type], l.mode, l.user, l.group] ++ l.columns.map Column.text

/-- The text of fields with blanks before each. -/
def spaced (gaps tokens : List Bytes) (trail : Bytes) : Bytes :=
  (List.zipWith (· ++ ·) gaps tokens).flatten ++ trail

/-- The text of a line. -/
def Line.text (l : Line) : Bytes := l.name ++ spaced l.gaps l.tokens l.trail

/-- What the line says. -/
def Line.fields (l : Line) : Fields where
  name := l.name
  type := l.type
  mode := UInt32.ofNat (digitsValue 8 l.mode)
  user := l.user
  group := l.group
  major := (l.columns.map Column.value).getD 0 0
  minor := (l.columns.map Column.value).getD 1 0
  start := (l.columns.map Column.value).getD 2 0
  increment := (l.columns.map Column.value).getD 3 0
  count := (l.columns.map Column.value).getD 4 0

/-- A field that is a word. -/
def IsWord (width : ℕ) (s : Bytes) : Prop :=
  s ≠ [] ∧ s.length ≤ width ∧ ∀ b ∈ s, isSpace b = false

instance (width : ℕ) (s : Bytes) : Decidable (IsWord width s) :=
  inferInstanceAs (Decidable (_ ∧ _))

/-- A field that is a number of at most `0xfffff`. -/
def IsNumber (radix : ℕ) (s : Bytes) : Prop :=
  s ≠ [] ∧ (∀ b ∈ s, isDigitIn radix b = true) ∧ digitsValue radix s ≤ 0xfffff

instance (radix : ℕ) (s : Bytes) : Decidable (IsNumber radix s) :=
  inferInstanceAs (Decidable (_ ∧ _))

/-- The line has the documented form: words that fit in their buffers, numbers that are not too
large, blanks between all fields, and a name that does not make it a comment. -/
structure Line.Documented (l : Line) : Prop where
  name : IsWord 4095 l.name
  noComment : l.name.head? ≠ some 35
  type : isSpace l.type = false
  mode : IsNumber 8 l.mode
  user : IsWord 40 l.user
  group : IsWord 40 l.group
  columns : ∀ c ∈ l.columns, c = .blank ∨ ∃ s, c = .digits s ∧ IsNumber 10 s
  count : l.columns.length = 5
  gaps : l.gaps.length = 9 ∧ ∀ gap ∈ l.gaps, gap ≠ [] ∧ ∀ b ∈ gap, isSpace b = true
  trail : ∀ b ∈ l.trail, isSpace b = true

/-! ### What the scan stores -/

/-- The last five variables set. -/
def Fields.withNumbers (v : Fields) (ns : List UInt32) : Fields :=
  { v with major := ns.getD 0 0, minor := ns.getD 1 0, start := ns.getD 2 0,
           increment := ns.getD 3 0, count := ns.getD 4 0 }

/-- The variables of a line before its last five are stored. -/
def Line.head (l : Line) : Fields where
  name := l.name
  type := l.type
  mode := UInt32.ofNat (digitsValue 8 l.mode)
  user := l.user
  group := l.group
  major := 0
  minor := 0
  start := 0
  increment := 0
  count := 0

variable {gap s trail : Bytes} {gaps tokens : List Bytes} {v : Fields} {memory : Memory}
  {l : Line}

/-- A field, the blanks before it and the rest. -/
theorem spaced_cons (gap s : Bytes) (gaps tokens : List Bytes) (trail : Bytes) :
    spaced (gap :: gaps) (s :: tokens) trail = gap ++ (s ++ spaced gaps tokens trail) := by
  simp [spaced]

/-- What follows a field is a blank or the end. -/
theorem ends_spaced (hgaps : ∀ gap ∈ gaps, gap ≠ [] ∧ ∀ b ∈ gap, isSpace b = true)
    (htrail : ∀ b ∈ trail, isSpace b = true) (hlen : gaps.length = tokens.length) :
    Ends (spaced gaps tokens trail) := by
  intro b hb
  cases gaps with
  | nil =>
    have hb : b ∈ trail.head? := by simpa [spaced] using hb
    exact htrail b (List.mem_of_mem_head? hb)
  | cons gap gaps =>
    obtain ⟨s, tokens, rfl⟩ := List.exists_cons_of_length_eq_add_one hlen.symm
    obtain ⟨hne, hgap⟩ := hgaps gap List.mem_cons_self
    obtain ⟨a, gap, rfl⟩ := List.exists_cons_of_ne_nil hne
    obtain rfl : a = b := by simpa [spaced] using hb
    exact hgap a List.mem_cons_self

/-- Fields that are taken are stored one after the other, and the scan goes on behind them. -/
theorem sscanf_takes {fields : List (Conversion Fields × Bytes × (Fields → Fields))}
    (htakes : ∀ x ∈ fields, Takes x.1 x.2.1 x.2.2) {convs : List (Conversion Fields)}
    {gaps' : List Bytes} (hgaps : ∀ gap ∈ gaps ++ gaps', gap ≠ [] ∧ ∀ b ∈ gap, isSpace b = true)
    (htrail : ∀ b ∈ trail, isSpace b = true) (hlen : gaps.length = fields.length)
    (hlen' : gaps'.length = tokens.length) :
    sscanf (fields.map (·.1) ++ convs)
        (spaced (gaps ++ gaps') (fields.map (·.2.1) ++ tokens) trail) v =
      ((sscanf convs (spaced gaps' tokens trail) (fields.foldl (fun v x ↦ x.2.2 v) v)).1 +
          fields.length,
        (sscanf convs (spaced gaps' tokens trail) (fields.foldl (fun v x ↦ x.2.2 v) v)).2) := by
  induction fields generalizing gaps v with
  | nil =>
    obtain rfl : gaps = [] := List.eq_nil_of_length_eq_zero hlen
    rfl
  | cons x fields ih =>
    obtain ⟨gap, gaps, rfl⟩ := List.exists_cons_of_length_eq_add_one hlen
    obtain ⟨hx, hfields⟩ := List.forall_mem_cons.mp htakes
    rw [List.cons_append] at hgaps
    obtain ⟨⟨-, hgap⟩, hrest⟩ := List.forall_mem_cons.mp hgaps
    have hlen : gaps.length = fields.length := by simpa using hlen
    have hends : Ends (spaced (gaps ++ gaps') (fields.map (·.2.1) ++ tokens) trail) :=
      ends_spaced hrest htrail (by simp [hlen, hlen'])
    rw [List.map_cons, List.map_cons, List.cons_append, List.cons_append, List.cons_append,
      spaced_cons, sscanf_cons (hx gap _ v hgap hends), ih hfields hrest hlen, List.foldl_cons,
      List.length_cons, Nat.add_assoc]

/-- The numbers are stored up to the first blank entry. -/
theorem sscanf_numbers (puts : List (UInt32 → Fields → Fields)) {columns : List Column} (v : Fields)
    (hcolumns : ∀ c ∈ columns, c = .blank ∨ ∃ s, c = .digits s ∧ IsNumber 10 s)
    (hgaps : ∀ gap ∈ gaps, gap ≠ [] ∧ ∀ b ∈ gap, isSpace b = true)
    (htrail : ∀ b ∈ trail, isSpace b = true) (hlen : gaps.length = columns.length)
    (hputs : puts.length = columns.length) :
    (sscanf (puts.map (scanUnsigned 10)) (spaced gaps (columns.map Column.text) trail) v).2 =
      (List.zip puts (columns.takeWhile fun c ↦ !c.isBlank)).foldl
        (fun v x ↦ x.1 x.2.value v) v := by
  induction columns generalizing puts gaps v with
  | nil =>
    obtain rfl : puts = [] := List.eq_nil_of_length_eq_zero hputs
    rfl
  | cons c columns ih =>
    obtain ⟨gap, gaps, rfl⟩ := List.exists_cons_of_length_eq_add_one hlen
    obtain ⟨put, puts, rfl⟩ := List.exists_cons_of_length_eq_add_one hputs
    obtain ⟨hc, hrest⟩ := List.forall_mem_cons.mp hcolumns
    obtain ⟨⟨-, hgap⟩, hgaps⟩ := List.forall_mem_cons.mp hgaps
    have hends : Ends (spaced gaps (columns.map Column.text) trail) :=
      ends_spaced hgaps htrail (by simpa using hlen)
    rw [List.map_cons, List.map_cons, spaced_cons, sscanf]
    rcases hc with rfl | ⟨s, rfl, hne, hdigits, hvalue⟩
    · have hminus : Column.text .blank ++ spaced gaps (columns.map Column.text) trail =
          45 :: spaced gaps (columns.map Column.text) trail := rfl
      rw [hminus, scanUnsigned_minus hgap (not_digit_of_ends (le_refl 10) hends)]
      rfl
    · rw [Column.text, scanUnsigned_digits (le_refl 10) hgap hne hdigits (by omega)
        (not_digit_of_ends (le_refl 10) hends)]
      exact ih puts _ hrest hgaps (by simpa using hlen) (by simpa using hputs)

/-- The numbers of up to five entries. -/
theorem foldl_numbers {columns : List Column} (hlen : columns.length ≤ 5) (l : Line) :
    (List.zip numbers columns).foldl (fun v x ↦ x.1 x.2.value v) l.head =
      l.head.withNumbers (columns.map Column.value) := by
  match columns, hlen with
  | [], _ => rfl
  | [_], _ => rfl
  | [_, _], _ => rfl
  | [_, _, _], _ => rfl
  | [_, _, _, _], _ => rfl
  | [_, _, _, _, _], _ => rfl

/-- The fields behind the name up to the group, with what takes them. -/
def Line.heads (l : Line) : List (Conversion Fields × Bytes × (Fields → Fields)) :=
  [(scanChar (fun c v ↦ { v with type := c }), [l.type], fun v ↦ { v with type := l.type }),
    (scanUnsigned 8 (fun n v ↦ { v with mode := n }), l.mode,
      fun v ↦ { v with mode := UInt32.ofNat (digitsValue 8 l.mode) }),
    (scanString 40 (fun w v ↦ { v with user := w }), l.user, fun v ↦ { v with user := l.user }),
    (scanString 40 (fun w v ↦ { v with group := w }), l.group,
      fun v ↦ { v with group := l.group })]

/-- They are taken. -/
theorem Line.Documented.takes (h : l.Documented) : ∀ x ∈ l.heads, Takes x.1 x.2.1 x.2.2 := by
  obtain ⟨hne, hdigits, hvalue⟩ := h.mode
  simp only [Line.heads, List.forall_mem_cons]
  refine ⟨takes_scanChar _ h.type, takes_scanUnsigned _ (by decide) hne hdigits (by omega),
    takes_scanString _ h.user.1 h.user.2.2 h.user.2.1,
    takes_scanString _ h.group.1 h.group.2.2 h.group.2.1, ?_⟩
  intro x hx
  cases hx

/-- A line of the documented form sets everything up to the group, and the numbers before the first
blank entry. -/
theorem sscanf_text (h : l.Documented) :
    5 ≤ (sscanf format l.text memory.fields).1 ∧
      (sscanf format l.text memory.fields).2 =
        l.head.withNumbers ((l.columns.takeWhile fun c ↦ !c.isBlank).map Column.value) := by
  obtain ⟨hlen, hgaps⟩ := h.gaps
  have hends : Ends (spaced l.gaps l.tokens l.trail) :=
    ends_spaced hgaps h.trail (by rw [hlen, Line.tokens]; simp [h.count])
  have hname : scanString 4095 (fun w v ↦ { v with name := w }) l.text memory.fields =
      some (spaced l.gaps l.tokens l.trail, { memory.fields with name := l.name }) :=
    takes_scanString _ h.name.1 h.name.2.2 h.name.2.1 [] _ _ (by simp) hends
  -- four gaps before the fields up to the group, and five before the numbers
  obtain ⟨gaps, gaps', hsplit, hfour, hfive⟩ :
      ∃ gaps gaps', l.gaps = gaps ++ gaps' ∧ gaps.length = 4 ∧ gaps'.length = 5 :=
    ⟨l.gaps.take 4, l.gaps.drop 4, (List.take_append_drop 4 l.gaps).symm, by simp [hlen],
      by simp [hlen]⟩
  rw [hsplit] at hgaps hname
  have hheads : sscanf (l.heads.map (·.1) ++ numbers.map (scanUnsigned 10))
      (spaced (gaps ++ gaps') l.tokens l.trail) { memory.fields with name := l.name } =
      ((sscanf (numbers.map (scanUnsigned 10))
          (spaced gaps' (l.columns.map Column.text) l.trail) l.head).1 + 4,
        (sscanf (numbers.map (scanUnsigned 10))
          (spaced gaps' (l.columns.map Column.text) l.trail) l.head).2) :=
    sscanf_takes h.takes hgaps h.trail hfour (by rw [hfive, List.length_map, h.count])
  have hnumbers := sscanf_numbers numbers l.head h.columns
    (fun gap hgap ↦ hgaps gap (List.mem_append_right gaps hgap)) h.trail
    (by rw [hfive, h.count]) (by rw [h.count]; rfl)
  have hformat : format = scanString 4095 (fun w v ↦ { v with name := w }) ::
      (l.heads.map (·.1) ++ numbers.map (scanUnsigned 10)) := rfl
  rw [hformat, sscanf_cons hname, hheads]
  refine ⟨Nat.le_add_left 5 _, ?_⟩
  rw [← foldl_numbers (by rw [← h.count]; exact (List.takeWhile_sublist _).length_le)]
  exact hnumbers

/-! ### Lines of the documented form -/

/-- The bound is one on bits. -/
theorem or_le_maxNumber {a b : UInt32} (ha : a ≤ maxNumber) (hb : b ≤ maxNumber) :
    a ||| b ≤ maxNumber := by
  have hmax : maxNumber.toNat = 2 ^ 20 - 1 := rfl
  rw [UInt32.le_iff_toNat_le] at ha hb ⊢
  have hor := Nat.or_lt_two_pow (n := 20) (x := a.toNat) (y := b.toNat) (by omega) (by omega)
  rw [UInt32.toNat_or]
  omega

/-- The values before a point and zeros behind it are all the values exactly when those behind it
are zero. -/
theorem getD_takeWhile {α : Type*} (p : α → Bool) (f : α → UInt32) (cs : List α) :
    (∀ i, ((cs.takeWhile p).map f).getD i 0 = (cs.map f).getD i 0) ↔
      ∀ c ∈ cs.dropWhile p, f c = 0 := by
  induction cs with
  | nil => simp
  | cons c cs ih =>
    cases hc : p c with
    | true =>
      rw [List.takeWhile_cons_of_pos hc, List.dropWhile_cons_of_pos hc, ← ih]
      constructor
      · exact fun h i ↦ by simpa using h (i + 1)
      · intro h i
        cases i with
        | zero => rfl
        | succ i => simpa using h i
    | false =>
      rw [List.takeWhile_cons_of_neg (by simp [hc]), List.dropWhile_cons_of_neg (by simp [hc])]
      constructor
      · intro h d hd
        obtain ⟨i, hi⟩ := List.mem_iff_getElem?.mp hd
        have hvalue : 0 = ((c :: cs).map f).getD i 0 := h i
        rw [List.getD_eq_getElem?_getD, List.getElem?_map, hi] at hvalue
        exact hvalue.symm
      · intro h i
        have hzero : ((c :: cs).map f).getD i 0 = 0 := by
          rw [List.getD_eq_getElem?_getD, List.getElem?_map]
          cases hi : (c :: cs)[i]? with
          | none => rfl
          | some d => exact h d (List.mem_of_getElem? hi)
        exact hzero.symm

/-- Values that are not too large stay so behind the end of the list. -/
theorem getD_le_maxNumber {ns : List UInt32} (h : ∀ n ∈ ns, n ≤ maxNumber) (i : ℕ) :
    ns.getD i 0 ≤ maxNumber := by
  rw [List.getD_eq_getElem?_getD]
  cases hi : ns[i]? with
  | none => exact UInt32.zero_le
  | some n => exact h n (List.mem_of_getElem? hi)

/-- The value of an entry is not too large. -/
theorem Line.Documented.value_le (h : l.Documented) :
    ∀ n ∈ l.columns.map Column.value, n ≤ maxNumber := by
  intro n hn
  obtain ⟨c, hc, rfl⟩ := List.mem_map.mp hn
  rcases h.columns c hc with rfl | ⟨s, rfl, -, -, hvalue⟩
  · exact UInt32.zero_le
  · have hsmall : digitsValue 10 s % 2 ^ 32 = digitsValue 10 s := Nat.mod_eq_of_lt (by omega)
    rw [UInt32.le_iff_toNat_le, Column.value, UInt32.toNat_ofNat', hsmall]
    exact hvalue

/-- A documented line is accepted with the numbers before the first blank entry. -/
theorem check_text (h : l.Documented) : check memory l.text =
    .accepted (l.head.withNumbers ((l.columns.takeWhile fun c ↦ !c.isBlank).map Column.value)) := by
  have hscan : 5 ≤ (sscanf format l.text memory.fields).1 ∧ _ := sscanf_text h
  obtain ⟨hconverted, hfields⟩ := hscan
  have hns : ∀ n ∈ (l.columns.takeWhile fun c ↦ !c.isBlank).map Column.value, n ≤ maxNumber :=
    fun n hn ↦ h.value_le n (List.map_subset _ (List.takeWhile_sublist _).subset hn)
  have hbound := or_le_maxNumber (or_le_maxNumber (or_le_maxNumber (or_le_maxNumber
    (getD_le_maxNumber hns 0) (getD_le_maxNumber hns 1)) (getD_le_maxNumber hns 2))
    (getD_le_maxNumber hns 4)) (getD_le_maxNumber hns 3)
  have hgood : ¬ ((sscanf format l.text memory.fields).1 < 2 ∨
      maxNumber < (sscanf format l.text memory.fields).2.major |||
        (sscanf format l.text memory.fields).2.minor |||
        (sscanf format l.text memory.fields).2.start |||
        (sscanf format l.text memory.fields).2.count |||
        (sscanf format l.text memory.fields).2.increment) := by
    rw [not_or, UInt32.not_lt, hfields]
    exact ⟨by omega, hbound⟩
  have hname : (sscanf format l.text memory.fields).2.name.head? ≠ some 35 := by
    rw [hfields]
    exact h.noComment
  rw [check]
  dsimp only
  rw [if_neg hgood, if_neg hname, hfields]

/-- A line of the documented form is accepted with the values that it gives, blank entries being
zero, exactly when it has no other number behind its first blank entry. -/
theorem check_documented_iff (h : l.Documented) :
    (∀ memory, check memory l.text = .accepted l.fields) ↔
      ∀ c ∈ l.columns.dropWhile (fun c ↦ !c.isBlank), c.value = 0 := by
  rw [← getD_takeWhile]
  simp only [check_text h]
  constructor
  · intro hall i
    have hfields := Checked.accepted.inj (hall ⟨[], 0, [], []⟩)
    simp only [Fields.withNumbers, Line.fields, Line.head, Fields.mk.injEq, true_and] at hfields
    obtain ⟨h₀, h₁, h₂, h₃, h₄⟩ := hfields
    match i with
    | 0 => exact h₀
    | 1 => exact h₁
    | 2 => exact h₂
    | 3 => exact h₃
    | 4 => exact h₄
    | i + 5 =>
      have hlen : (l.columns.takeWhile fun c ↦ !c.isBlank).length ≤ 5 :=
        h.count ▸ (List.takeWhile_sublist _).length_le
      have hnone : ((l.columns.takeWhile fun c ↦ !c.isBlank).map Column.value)[i + 5]? = none :=
        List.getElem?_eq_none (by rw [List.length_map]; omega)
      have hnone' : (l.columns.map Column.value)[i + 5]? = none :=
        List.getElem?_eq_none (by rw [List.length_map, h.count]; omega)
      rw [List.getD_eq_getElem?_getD, List.getD_eq_getElem?_getD, hnone, hnone']
  · intro hall _
    simp only [Fields.withNumbers, Line.fields, Line.head, hall]

/-- `/dev/foo c 666 0 0 5 - 1 1 4`: a range of four nodes with a blank minor number. -/
def blankMinor : Line where
  name := str "/dev/foo"
  type := 99
  mode := str "666"
  user := str "0"
  group := str "0"
  columns := [.digits (str "5"), .blank, .digits (str "1"), .digits (str "1"), .digits (str "4")]
  gaps := List.replicate 9 (str " ")
  trail := []

/-- The line has the documented form. -/
theorem blankMinor_documented : blankMinor.Documented where
  name := by decide
  noComment := by decide
  type := by decide
  mode := by decide
  user := by decide
  group := by decide
  columns := by
    intro c hc
    simp only [blankMinor, List.mem_cons, List.not_mem_nil, or_false] at hc
    rcases hc with rfl | rfl | rfl | rfl | rfl
    · exact .inr ⟨_, rfl, by decide⟩
    · exact .inl rfl
    · exact .inr ⟨_, rfl, by decide⟩
    · exact .inr ⟨_, rfl, by decide⟩
    · exact .inr ⟨_, rfl, by decide⟩
  count := by decide
  gaps := by decide
  trail := by decide

/-- The numbers behind the blank entry are not read: the line makes no range. -/
theorem check_blankMinor :
    blankMinor.text = str "/dev/foo c 666 0 0 5 - 1 1 4" ∧ blankMinor.Documented ∧
      ∀ memory, check memory blankMinor.text ≠ .accepted blankMinor.fields := by
  refine ⟨by decide, blankMinor_documented, fun memory hcheck ↦ ?_⟩
  rw [check_text blankMinor_documented] at hcheck
  exact absurd (congrArg Fields.count (Checked.accepted.inj hcheck)) (by decide)

/-- The law at the line with a blank minor number. -/
theorem check_documented_iff_blankMinor :
    (∀ memory, check memory blankMinor.text = .accepted blankMinor.fields) ↔
      ∀ c ∈ blankMinor.columns.dropWhile (fun c ↦ !c.isBlank), c.value = 0 :=
  check_documented_iff blankMinor_documented

end MotionPie.Package.Makedevs
