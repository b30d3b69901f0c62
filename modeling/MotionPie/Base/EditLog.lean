import Mathlib.Data.List.Basic

/-!
# Editing by key

A list of lines in which an edit deletes the lines that its key hits and adds a line at the
end. Every line may have a key, and a key hits its own lines. It may hit others too.
-/

namespace MotionPie.Base.EditLog

section Edits

variable {K L : Type} (hits : K → L → Bool) (keyOf : L → Option K)

/-- The lines that the key hits go, and the new line is the last one. -/
def edit (ls : List L) (e : K × L) : List L := ls.filter (fun l ↦ !hits e.1 l) ++ [e.2]

/-- Edits, one after another. -/
def editAll (ls : List L) (es : List (K × L)) : List L := es.foldl (edit hits) ls

/-- Whether no edit hits a line. -/
def spared (es : List (K × L)) (l : L) : Bool := es.all fun e ↦ !hits e.1 l

/-- The lines of the edits that no later edit hits. -/
def lasting : List (K × L) → List L
  | [] => []
  | e :: es => [e.2].filter (spared hits es) ++ lasting es

/-- `e` is the last edit of its key. -/
def LastEdit (es : List (K × L)) (e : K × L) (post : List (K × L)) : Prop :=
  (∃ pre, es = pre ++ e :: post) ∧ e.1 ∉ post.map Prod.fst

/-- An edit writes a line of its key, and a key hits its own lines. -/
structure Keyed (es : List (K × L)) : Prop where
  hits : ∀ k l, keyOf l = some k → hits k l
  line : ∀ e ∈ es, keyOf e.2 = some e.1

variable {hits keyOf} {ls : List L} {es es' post : List (K × L)} {e : K × L} {k : K} {l : L}

@[simp] theorem spared_cons : spared hits (e :: es) l = (!hits e.1 l && spared hits es l) := rfl

/-- A line that is spared is hit by no key that is edited. -/
theorem hits_eq_false_of_spared (h : spared hits es l) (hmem : k ∈ es.map Prod.fst) :
    hits k l = false := by
  obtain ⟨e, he, rfl⟩ := List.mem_map.mp hmem
  simpa using List.all_eq_true.mp h e he

/-- What the edits leave: the lines that none hits, and the lines of the edits that no later edit
hits. -/
theorem editAll_eq (ls : List L) (es : List (K × L)) :
    editAll hits ls es = ls.filter (spared hits es) ++ lasting hits es := by
  induction es generalizing ls with
  | nil => exact ((List.append_nil _).trans (List.filter_eq_self.mpr fun _ _ ↦ rfl)).symm
  | cons e es ih =>
    rw [editAll, List.foldl_cons, ← editAll, ih, edit, List.filter_append,
      List.filter_filter, lasting, List.append_assoc]
    congr 1
    exact List.filter_congr fun l _ ↦ by rw [spared_cons, Bool.and_comm]

/-- A lasting line is that of an edit. -/
theorem exists_of_mem_lasting (h : l ∈ lasting hits es) : ∃ e ∈ es, e.2 = l := by
  induction es with
  | nil => cases h
  | cons e es ih =>
    rcases List.mem_append.mp h with h | h
    · exact ⟨e, List.mem_cons_self, (List.mem_singleton.mp (List.mem_of_mem_filter h)).symm⟩
    · obtain ⟨f, hf, hl⟩ := ih h
      exact ⟨f, List.mem_cons_of_mem _ hf, hl⟩

/-- The last edit of a key is the first edit of all, or the last one among the others. -/
theorem lastEdit_cons_iff {e f : K × L} : LastEdit (e :: es) f post ↔
    (f = e ∧ post = es ∧ e.1 ∉ es.map Prod.fst) ∨ LastEdit es f post := by
  constructor
  · rintro ⟨⟨pre, hpre⟩, hlast⟩
    rcases List.cons_eq_append_iff.mp hpre with ⟨-, h⟩ | ⟨pre, -, h⟩
    · obtain ⟨rfl, rfl⟩ := List.cons.inj h
      exact .inl ⟨rfl, rfl, hlast⟩
    · exact .inr ⟨⟨pre, h⟩, hlast⟩
  · rintro (⟨rfl, rfl, hlast⟩ | ⟨⟨pre, rfl⟩, hlast⟩)
    · exact ⟨⟨[], rfl⟩, hlast⟩
    · exact ⟨⟨e :: pre, rfl⟩, hlast⟩

namespace Keyed

/-- Fewer edits. -/
theorem mono (hk : Keyed hits keyOf es) (h : es' ⊆ es) : Keyed hits keyOf es' :=
  ⟨hk.hits, fun e he ↦ hk.line e (h he)⟩

/-- The key of a lasting line has been edited. -/
theorem exists_key_of_mem_lasting (hk : Keyed hits keyOf es) (h : l ∈ lasting hits es) :
    ∃ k ∈ es.map Prod.fst, keyOf l = some k := by
  obtain ⟨e, he, rfl⟩ := exists_of_mem_lasting h
  exact ⟨e.1, List.mem_map_of_mem he, hk.line e he⟩

end Keyed

end Edits

section Lines

variable {K L : Type} [DecidableEq K] (hits : K → L → Bool) (keyOf : L → Option K)

/-- Whether a line has a key that no edit is about. -/
def ofOther (es : List (K × L)) (l : L) : Bool :=
  (keyOf l).any fun k ↦ decide (k ∉ es.map Prod.fst)

/-- Each key that was edited has one line, that of its last edit, and the lines of the other
keys are as they were. -/
structure Kept (ls : List L) (es : List (K × L)) (out : List L) : Prop where
  touched : ∀ e post, LastEdit es e post → out.filter (fun l ↦ keyOf l = some e.1) = [e.2]
  untouched : out.filter (ofOther keyOf es) = ls.filter (ofOther keyOf es)

/-- No edit hits a line that has to stay. -/
structure Separate (ls : List L) (es : List (K × L)) : Prop where
  touched : ∀ e post, LastEdit es e post → spared hits post e.2
  untouched : ∀ l ∈ ls, ofOther keyOf es l → spared hits es l

/-- A last line `r` and the line of the first edit, which become one line `g`, need not stay. -/
structure Dispensable (e : K × L) (es : List (K × L)) (r g : L) : Prop where
  again : e.1 ∈ es.map Prod.fst
  last : ofOther keyOf (e :: es) r = false
  joined : ofOther keyOf (e :: es) g → spared hits es g = false

variable {hits keyOf} {ls : List L} {es es' post : List (K × L)} {e f : K × L} {l g r : L}

/-- Behind the last edit of a key, the only line of the key is that of the edit, if no later edit
hits it. -/
theorem filter_of_lastEdit (hk : Keyed hits keyOf es) (h : LastEdit es e post) (ls : List L) :
    (editAll hits ls es).filter (fun l ↦ keyOf l = some e.1) =
      [e.2].filter (spared hits post) := by
  obtain ⟨⟨pre, rfl⟩, hlast⟩ := h
  have hline : keyOf e.2 = some e.1 := hk.line e (by simp)
  have hpost : Keyed hits keyOf post := hk.mono fun f hf ↦ by simp [hf]
  -- Every earlier line of the key is hit by the edit.
  have hold : ((editAll hits ls pre).filter fun l ↦ !hits e.1 l).filter
      (fun l ↦ keyOf l = some e.1) = [] := by
    simp only [List.filter_eq_nil_iff, List.mem_filter, decide_eq_true_eq]
    intro l hl hkey
    rw [hk.hits _ _ hkey] at hl
    exact Bool.false_ne_true hl.2
  have hnew : (lasting hits post).filter (fun l ↦ keyOf l = some e.1) = [] := by
    simp only [List.filter_eq_nil_iff, decide_eq_true_eq]
    intro l hl hkey
    obtain ⟨k, hmem, hl⟩ := hpost.exists_key_of_mem_lasting hl
    obtain rfl : k = e.1 := Option.some.inj (hl.symm.trans hkey)
    exact hlast hmem
  have hrun : editAll hits ls (pre ++ e :: post) =
      editAll hits (edit hits (editAll hits ls pre) e) post := by
    rw [editAll, List.foldl_append]
    rfl
  rw [hrun, editAll_eq, edit, List.filter_append, List.filter_append,
    List.filter_append, hnew, List.append_nil, List.filter_comm, hold, List.filter_nil,
    List.nil_append, List.filter_filter]
  exact List.filter_congr fun l hl ↦ by simp [List.mem_singleton.mp hl, hline]

/-- The lines of keys that are not edited are those that no edit hits. -/
theorem filter_untouched (hk : Keyed hits keyOf es) (h : es ⊆ es') (ls : List L) :
    (editAll hits ls es).filter (ofOther keyOf es') =
      (ls.filter (ofOther keyOf es')).filter (spared hits es) := by
  have hnew : (lasting hits es).filter (ofOther keyOf es') = [] := by
    rw [List.filter_eq_nil_iff]
    intro l hl
    obtain ⟨k, hmem, hkey⟩ := hk.exists_key_of_mem_lasting hl
    have hmem' : k ∈ es'.map Prod.fst := List.map_subset _ h hmem
    simp [ofOther, hkey, hmem']
  rw [editAll_eq, List.filter_append, hnew, List.append_nil, List.filter_comm]

/-- Edits keep to their keys if and only if none hits a line that has to stay. -/
theorem kept_editAll_iff (hk : Keyed hits keyOf es) (ls : List L) :
    Kept keyOf ls es (editAll hits ls es) ↔ Separate hits keyOf ls es := by
  have htouched (e : K × L) (post : List (K × L)) (h : LastEdit es e post) :
      (editAll hits ls es).filter (fun l ↦ keyOf l = some e.1) = [e.2] ↔
        spared hits post e.2 := by
    rw [filter_of_lastEdit hk h, List.filter_eq_self, List.forall_mem_singleton]
  have huntouched : (editAll hits ls es).filter (ofOther keyOf es) =
      ls.filter (ofOther keyOf es) ↔ ∀ l ∈ ls, ofOther keyOf es l → spared hits es l := by
    rw [filter_untouched hk (List.Subset.refl _), List.filter_eq_self]
    simp only [List.mem_filter, and_imp]
  constructor
  · intro h
    exact ⟨fun e post he ↦ (htouched e post he).mp (h.touched e post he),
      huntouched.mp h.untouched⟩
  · intro h
    exact ⟨fun e post he ↦ (htouched e post he).mpr (h.touched e post he),
      huntouched.mpr h.untouched⟩

/-! ### A line that is joined to another -/

/-- A list that loses lines and gets one cannot come out as one that keeps them and has another at
its end. -/
theorem filter_append_eq_append_iff {p q u : L → Bool} (ls : List L) (hne : g ≠ r)
    (hq : q g → p g) : ls.filter p ++ [g].filter q = ls ++ [r].filter u ↔
      (∀ l ∈ ls, p l) ∧ q g = false ∧ u r = false := by
  constructor
  · intro h
    have hcancel : ([g].filter q).filter p = ([r].filter u).filter p := by
      have hp := congrArg (List.filter p) h
      simpa only [List.filter_append, List.filter_filter, Bool.and_self,
        List.append_cancel_left_eq] using hp
    have hg : q g = false := by
      by_contra hqg
      rw [Bool.not_eq_false] at hqg
      have hmem : g ∈ ([r].filter u).filter p := by
        rw [← hcancel]
        simp [hqg, hq hqg]
      exact hne (List.mem_singleton.mp (List.mem_of_mem_filter (List.mem_of_mem_filter hmem)))
    rw [List.filter_cons_of_neg (by simp [hg]), List.filter_nil, List.append_nil] at h
    have hlen := congrArg List.length h
    have hle := List.length_filter_le p ls
    rw [List.length_append] at hlen
    have hnil : [r].filter u = [] := List.length_eq_zero_iff.mp (by omega)
    rw [hnil, List.append_nil, List.filter_eq_self] at h
    exact ⟨h, hg, by simpa using hnil⟩
  · rintro ⟨hp, hg, hr⟩
    simp [List.filter_eq_self.mpr hp, hg, hr]

/-- The lines of the keys that are not edited, when the first edit is joined to the last line. -/
theorem filter_untouched_joined (hk : Keyed hits keyOf (e :: es)) (ls : List L) (g : L) :
    (editAll hits (ls.filter (fun l ↦ !hits e.1 l) ++ [g]) es).filter
        (ofOther keyOf (e :: es)) =
      (ls.filter (ofOther keyOf (e :: es))).filter (spared hits (e :: es)) ++
        [g].filter fun l ↦ spared hits es l && ofOther keyOf (e :: es) l := by
  have hsub : es ⊆ e :: es := List.subset_cons_self e es
  have hspared : ((ls.filter fun l ↦ !hits e.1 l).filter (ofOther keyOf (e :: es))).filter
      (spared hits es) =
        (ls.filter (ofOther keyOf (e :: es))).filter (spared hits (e :: es)) := by
    rw [List.filter_comm (ofOther keyOf (e :: es)), List.filter_filter]
    exact List.filter_congr fun l _ ↦ by rw [spared_cons, Bool.and_comm]
  rw [filter_untouched (hk.mono hsub) hsub, List.filter_append, List.filter_append, hspared]
  exact congrArg _ List.filter_filter

/-- The line of an edit of a key that is not edited again must be there in the end. -/
theorem exists_later_of_kept (hk : Keyed hits keyOf (e :: es)) (hge : g ≠ e.2)
    (h : Kept keyOf (ls ++ [r]) (e :: es)
      (editAll hits (ls.filter (fun l ↦ !hits e.1 l) ++ [g]) es)) :
    e.1 ∈ es.map Prod.fst := by
  have hkes : Keyed hits keyOf es := hk.mono (List.subset_cons_self e es)
  have hline : keyOf e.2 = some e.1 := hk.line e List.mem_cons_self
  by_contra hlast
  have hmem : e.2 ∈ editAll hits (ls.filter (fun l ↦ !hits e.1 l) ++ [g]) es := by
    have hone := h.touched e es (lastEdit_cons_iff.mpr (.inl ⟨rfl, rfl, hlast⟩))
    exact List.mem_of_mem_filter (hone ▸ List.mem_singleton_self e.2)
  rw [editAll_eq, List.mem_append] at hmem
  rcases hmem with hold | hnew
  · rcases List.mem_append.mp (List.mem_of_mem_filter hold) with hls | hjoined
    · have hnot := List.of_mem_filter hls
      rw [hk.hits _ _ hline] at hnot
      exact Bool.false_ne_true hnot
    · exact hge (List.mem_singleton.mp hjoined).symm
  · obtain ⟨k, hmem, hkey⟩ := hkes.exists_key_of_mem_lasting hnew
    obtain rfl : k = e.1 := Option.some.inj (hkey.symm.trans hline)
    exact hlast hmem

/-- Edits the first of which does not begin a line of its own. -/
theorem kept_joined_iff (hk : Keyed hits keyOf (e :: es)) (ls : List L) (hge : g ≠ e.2)
    (hgr : g ≠ r) :
    Kept keyOf (ls ++ [r]) (e :: es)
        (editAll hits (ls.filter (fun l ↦ !hits e.1 l) ++ [g]) es) ↔
      Separate hits keyOf (ls ++ [r]) (e :: es) ∧ Dispensable hits keyOf e es r g := by
  have hkes : Keyed hits keyOf es := hk.mono (List.subset_cons_self e es)
  -- A last edit is among the later ones when the first key is edited again.
  have htouched (hagain : e.1 ∈ es.map Prod.fst) {f : K × L} {post : List (K × L)}
      (hlast : LastEdit (e :: es) f post) :
      (editAll hits (ls.filter (fun l ↦ !hits e.1 l) ++ [g]) es).filter
        (fun l ↦ keyOf l = some f.1) = [f.2] ↔ spared hits post f.2 := by
    rcases lastEdit_cons_iff.mp hlast with ⟨-, -, hnot⟩ | hlast
    · exact absurd hagain hnot
    · rw [filter_of_lastEdit hkes hlast, List.filter_eq_self, List.forall_mem_singleton]
  have huntouched (hagain : e.1 ∈ es.map Prod.fst) :
      (editAll hits (ls.filter (fun l ↦ !hits e.1 l) ++ [g]) es).filter
          (ofOther keyOf (e :: es)) = (ls ++ [r]).filter (ofOther keyOf (e :: es)) ↔
        (∀ l ∈ ls.filter (ofOther keyOf (e :: es)), spared hits (e :: es) l) ∧
          (spared hits es g && ofOther keyOf (e :: es) g) = false ∧
          ofOther keyOf (e :: es) r = false := by
    rw [filter_untouched_joined hk, List.filter_append]
    refine filter_append_eq_append_iff _ hgr fun h ↦ ?_
    rw [Bool.and_eq_true] at h
    rw [spared_cons, hits_eq_false_of_spared h.1 hagain, h.1]
    rfl
  constructor
  · intro h
    have hagain := exists_later_of_kept hk hge h
    obtain ⟨hls, hg, hr⟩ := (huntouched hagain).mp h.untouched
    refine ⟨⟨fun f post hlast ↦ (htouched hagain hlast).mp (h.touched f post hlast), ?_⟩,
      ⟨hagain, hr, ?_⟩⟩
    · intro l hl hun
      rcases List.mem_append.mp hl with hl | hl
      · exact hls l (List.mem_filter.mpr ⟨hl, hun⟩)
      · rw [List.mem_singleton.mp hl, hr] at hun
        cases hun
    · intro hun
      rwa [hun, Bool.and_true] at hg
  · rintro ⟨hsep, hdis⟩
    refine ⟨fun f post hlast ↦ (htouched hdis.again hlast).mpr (hsep.touched f post hlast),
      (huntouched hdis.again).mpr ⟨?_, ?_, hdis.last⟩⟩
    · intro l hl
      obtain ⟨hl, hun⟩ := List.mem_filter.mp hl
      exact hsep.untouched l (List.mem_append_left _ hl) hun
    · cases hun : ofOther keyOf (e :: es) g with
      | false => exact Bool.and_false _
      | true => rw [hdis.joined hun, Bool.false_and]

end Lines

end MotionPie.Base.EditLog
