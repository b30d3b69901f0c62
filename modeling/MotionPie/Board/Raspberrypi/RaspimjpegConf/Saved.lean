import MotionPie.Board.Raspberrypi.RaspimjpegConf.Files

/-!
# Saving unchanged options

Settings that have been read from a file are written back. The new file sets all options that the
getter knows, their names have dashes, and the three levels are lowered to even numbers: a percent
is two units of them.
-/

namespace MotionPie.Board.Raspberrypi.Raspimjpeg

open Base
open Package.Motioneye.Extractl (dashed entry_eq_some Readable readable_of_entry readable_showInt)

/-- The options that a file denotes. Of two lines with the same name the last one counts. -/
def denoted (conf : Bytes) : Settings := insertAll ∅ (options conf)

/-- The options that a file denotes over the defaults, under names with dashes. -/
def completed (conf : Bytes) : Settings := insertAll defaults ((options conf).map dash)

/-- The options that are rescaled. -/
def levelNames : List Bytes := [str "sharpness", str "saturation", str "contrast"]

/-- The options that are numbers for raspimjpeg and for the getter. -/
def sizedNames : List Bytes := levelNames ++ [str "height", str "width"]

/-- A file with options that raspimjpeg accepts: the levels and the sizes are numbers, no name
starts with a capital letter, and there is no resolution beside width and height. -/
structure Accepted (conf : Bytes) : Prop where
  number : ∀ i ∈ options conf, i.1 ∈ sizedNames → ∃ n, i.2 = .int n
  lower : ∀ i ∈ options conf, Lower i.1
  resolution : ∀ i ∈ options conf, i.1 ≠ str "resolution"

/-- A number lowered to an even one. -/
def evened : Val → Val
  | .int n => .int (n - n % 2)
  | v => v

/-- An option as it is saved. -/
def saved (k : Bytes) (v : Val) : Val := if k ∈ levelNames then evened v else v

/-- A file that loses nothing: it sets all options that the getter knows, its names have dashes
only, and its levels are even. -/
structure Lossless (conf : Bytes) : Prop where
  complete : ∀ i ∈ defaultItems, i.1 ∈ (options conf).map Prod.fst
  dashed : ∀ i ∈ options conf, dashed i.1 = i.1
  even : ∀ k ∈ levelNames, ∀ n, (denoted conf).lookup k = some (.int n) → n % 2 = 0

variable {o p : Order Bytes Val} {conf : Bytes} {i : Bytes × Val} {n : Bytes}

/-! ### Options that were read -/

/-- A value that has been read can be written. -/
theorem readable_optionText_readVal {value : Bytes} (h : Readable value) :
    Readable (optionText (readVal value)) := by
  have hfalse : Readable (str "false") := ⟨by decide, by decide, by decide⟩
  have htrue : Readable (str "true") := ⟨by decide, by decide, by decide⟩
  unfold readVal
  split
  · exact readable_showInt _
  · split
    · exact hfalse
    · split
      · exact htrue
      · exact h

/-- An option that has been read can be written. -/
theorem writable_of_mem_options (h : i ∈ options conf) : Writable i := by
  obtain ⟨line, hline, hoption⟩ := List.mem_filterMap.mp h
  unfold option at hoption
  split at hoption
  · next name value hsplit =>
    cases hoption
    obtain ⟨hblank, hstrip⟩ := split_one_eq.mp hsplit
    have hhead := head?_strip (s := line)
    have hnewline := newline_notMem_strip (mem_readlines hline)
    rw [hstrip] at hhead hnewline
    have hne : name ≠ [] := by
      rintro rfl
      exact absurd (hhead 32 rfl) (by decide)
    rw [List.head?_append_of_ne_nil _ hne] at hhead
    have hentry := entry_eq_some.mpr ⟨name, hblank, hstrip, rfl⟩
    exact ⟨hne, hhead, hblank, fun hmem ↦ hnewline (List.mem_append_left _ hmem),
      readable_optionText_readVal (readable_of_entry (mem_readlines hline) hentry)⟩
  · cases hoption

/-- A value that has been read stands for itself. -/
theorem reread_of_mem_options (h : i ∈ options conf) : readVal (optionText i.2) = i.2 := by
  obtain ⟨line, -, hoption⟩ := List.mem_filterMap.mp h
  unfold option at hoption
  split at hoption
  · cases hoption
    exact readVal_optionText_readVal _
  · cases hoption

/-! ### Names with dashes -/

theorem mem_dashed {b : UInt8} (hb : b ∈ dashed n) : b = 45 ∨ b ∈ n := by
  obtain ⟨c, hc, rfl⟩ := List.mem_map.mp hb
  split
  · exact .inl rfl
  · exact .inr hc

theorem dashed_dashed (n : Bytes) : dashed (dashed n) = dashed n := by
  unfold dashed
  rw [List.map_map]
  apply List.map_congr_left
  intro b hb
  by_cases h : b = 95
  · simp [h]
  · simp [h]

/-- A name without a dash is the name of itself only. -/
theorem eq_of_dashed_eq {m : Bytes} (hm : 45 ∉ m) (h : dashed n = m) : n = m := by
  subst h
  have hself : ∀ b ∈ n, (if b = 95 then 45 else b) = b := by
    intro b hb
    split
    · next hunderscore =>
      have hdash : 45 ∈ dashed n := List.mem_map.mpr ⟨b, hb, if_pos hunderscore⟩
      exact absurd hdash hm
    · rfl
  exact ((List.map_congr_left hself).trans (List.map_id n)).symm

theorem lower_dashed (h : Lower n) : Lower (dashed n) := by
  obtain ⟨b, t, rfl, hb⟩ := h
  refine ⟨if b = 95 then 45 else b, dashed t, rfl, ?_⟩
  split
  · decide
  · exact hb

theorem writable_dash (h : Writable i) : Writable (dash i) where
  ne_nil := by
    simpa [dash, dashed] using h.ne_nil
  head b hb := by
    rw [dash, dashed, List.head?_map] at hb
    obtain ⟨c, hc, rfl⟩ := Option.map_eq_some_iff.mp hb
    split
    · decide
    · exact h.head c hc
  blank hb := h.blank ((mem_dashed hb).resolve_left (by decide))
  newline hb := h.newline ((mem_dashed hb).resolve_left (by decide))
  value := h.value

/-! ### The options of the getter -/

/-- What holds of every option that the getter has read. -/
structure Read (k : Bytes) (v : Val) : Prop where
  writable : Writable (k, v)
  dashed : dashed k = k
  lower : Lower k
  resolution : k ≠ str "resolution"
  number : k ∈ sizedNames → ∃ n, v = .int n
  reread : readVal (optionText v) = v

theorem read_of_mem_defaultItems : ∀ i ∈ defaultItems, Read i.1 i.2 := by
  have hname : ∀ i ∈ defaultItems, i.1 ≠ [] ∧ (∀ b ∈ i.1.head?, isSpace b = false) ∧ 32 ∉ i.1 ∧
      newline ∉ i.1 := by decide
  have hvalue : ∀ i ∈ defaultItems, optionText i.2 ≠ [] ∧ newline ∉ optionText i.2 ∧
      ∀ b ∈ (optionText i.2).getLast?, isSpace b = false := by decide
  have hdashed : ∀ i ∈ defaultItems, dashed i.1 = i.1 ∧ i.1 ≠ str "resolution" ∧
      readVal (optionText i.2) = i.2 := by decide
  have hlower : ∀ i ∈ defaultItems, ∀ b ∈ i.1.head?, ¬ (65 ≤ b ∧ b ≤ 90) := by decide
  have hnumber : ∀ i ∈ defaultItems, i.1 ∈ sizedNames → i.2 = .int 0 ∨ i.2 = .int 640 ∨
      i.2 = .int 480 := by decide
  intro i hi
  obtain ⟨hne, hhead, hblank, hnewline⟩ := hname i hi
  obtain ⟨hself, hresolution, hreread⟩ := hdashed i hi
  have hfirst := hlower i hi
  refine ⟨⟨hne, hhead, hblank, hnewline, ?_⟩, hself, ?_, hresolution, ?_, hreread⟩
  · obtain ⟨hne', hnewline', hlast⟩ := hvalue i hi
    exact ⟨hne', hnewline', hlast⟩
  · cases hn : i.1 with
    | nil => exact absurd hn hne
    | cons b t => exact ⟨b, t, rfl, hfirst b (by rw [hn]; rfl)⟩
  · intro hsized
    rcases hnumber i hi hsized with h | h | h
    all_goals exact ⟨_, h⟩

theorem read_completed (h : Accepted conf) :
    ∀ k v, (completed conf).lookup k = some v → Read k v := by
  apply forall_lookup_insertAll
  · intro k v hv
    exact read_of_mem_defaultItems (k, v) ((holds_defaults.lookup k v).mp hv)
  · intro i hi
    obtain ⟨j, hj, rfl⟩ := List.mem_map.mp hi
    have hno : ∀ m ∈ str "resolution" :: sizedNames, 45 ∉ m := by decide
    refine ⟨writable_dash (writable_of_mem_options hj), dashed_dashed _,
      lower_dashed (h.lower j hj), ?_, ?_, reread_of_mem_options (i := j) hj⟩
    · intro heq
      exact h.resolution j hj (eq_of_dashed_eq (hno _ List.mem_cons_self) heq)
    · intro hsized
      apply h.number j hj
      have heq := eq_of_dashed_eq (hno _ (List.mem_cons_of_mem _ hsized)) rfl
      rwa [heq]

/-- The levels and the sizes are numbers. -/
theorem exists_number (h : Accepted conf) {k : Bytes} (hk : k ∈ sizedNames) :
    ∃ n, (completed conf).lookup k = some (.int n) := by
  have hdefault : ∀ k ∈ sizedNames, k ∈ defaultItems.map Prod.fst := by decide
  obtain ⟨i, hi, rfl⟩ := List.mem_map.mp (hdefault k hk)
  have hsome : (defaults.lookup i.1).isSome := by
    rw [(holds_defaults.lookup i.1 i.2).mpr hi]
    rfl
  obtain ⟨v, hv⟩ := Option.isSome_iff_exists.mp
    (isSome_lookup_insertAll (l := (options conf).map dash) hsome)
  obtain ⟨n, rfl⟩ := (read_completed h _ _ hv).number hk
  exact ⟨n, hv⟩

/-- The items that the getter has read. -/
theorem completed_holds (h : Accepted conf) :
    ∃ sharpness saturation contrast width height rest, (∀ i ∈ rest, Ordinary i.1) ∧
      Holds (completed conf)
        (levels sharpness saturation contrast ++ size width height ++ rest) := by
  obtain ⟨sharpness, hsharpness⟩ := exists_number h (k := str "sharpness") (by decide)
  obtain ⟨saturation, hsaturation⟩ := exists_number h (k := str "saturation") (by decide)
  obtain ⟨contrast, hcontrast⟩ := exists_number h (k := str "contrast") (by decide)
  obtain ⟨height, hheight⟩ := exists_number h (k := str "height") (by decide)
  obtain ⟨width, hwidth⟩ := exists_number h (k := str "width") (by decide)
  have hresolution : (completed conf).lookup (str "resolution") = none := by
    apply Option.eq_none_iff_forall_ne_some.mpr
    intro v hv
    exact (read_completed h _ v hv).resolution rfl
  have hnodup : ((levels sharpness saturation contrast ++ size width height).map
      Prod.fst).Nodup := by
    have hnames : (sizedNames).Nodup := by decide
    exact hnames
  have hitems : ∀ k v, (k, v) ∈ levels sharpness saturation contrast ++ size width height ↔
      k ∈ specials ∧ (completed conf).lookup k = some v := by
    intro k v
    simp only [levels, size, specials, List.cons_append, List.nil_append, List.mem_cons,
      List.not_mem_nil, or_false, Prod.mk.injEq]
    constructor
    · rintro (⟨rfl, rfl⟩ | ⟨rfl, rfl⟩ | ⟨rfl, rfl⟩ | ⟨rfl, rfl⟩ | ⟨rfl, rfl⟩)
      · exact ⟨by simp, hsharpness⟩
      · exact ⟨by simp, hsaturation⟩
      · exact ⟨by simp, hcontrast⟩
      · exact ⟨by simp, hheight⟩
      · exact ⟨by simp, hwidth⟩
    · rintro ⟨rfl | rfl | rfl | rfl | rfl | rfl, hv⟩
      · simp [Option.some.inj (hv.symm.trans hsharpness)]
      · simp [Option.some.inj (hv.symm.trans hsaturation)]
      · simp [Option.some.inj (hv.symm.trans hcontrast)]
      · simp [Option.some.inj (hv.symm.trans hheight)]
      · simp [Option.some.inj (hv.symm.trans hwidth)]
      · rw [hresolution] at hv
        cases hv
  have hfront := (holds_items .stored (completed conf)).front hnodup hitems
  refine ⟨sharpness, saturation, contrast, width, height, _, ?_, hfront⟩
  intro i hi
  obtain ⟨hmem, hout⟩ := List.mem_filter.mp hi
  exact ⟨(read_completed h i.1 i.2 (Order.mem_items.mp hmem)).lower, by simpa using hout⟩

/-! ### Saving -/

/-- A percent is two units of a level. -/
theorem unpercent_percent (n : Int) : unpercent (percent n) = n - n % 2 := by
  unfold percent unpercent
  omega

/-- An option that is saved can be read back as it is. -/
theorem reread_saved {k : Bytes} {v : Val} (h : Read k v) :
    Writable (k, saved k v) ∧ reread (k, saved k v) = (k, saved k v) := by
  have hsame : Writable (k, v) ∧ reread (k, v) = (k, v) :=
    ⟨h.writable, congrArg (k, ·) h.reread⟩
  have hint : ∀ n, Writable (k, .int n) ∧ reread (k, .int n) = (k, .int n) := by
    intro n
    have hw := h.writable
    exact ⟨⟨hw.ne_nil, hw.head, hw.blank, hw.newline, readable_showInt n⟩,
      congrArg (k, ·) (readVal_showInt n)⟩
  unfold saved
  split
  · cases v with
    | int n => exact hint _
    | bool b => exact hsame
    | text t => exact hsame
  · exact hsame

/-- The items that are saved. -/
theorem map_saved {sharpness saturation contrast width height : Int} {rest : List (Bytes × Val)}
    (hrest : ∀ i ∈ rest, Ordinary i.1) :
    (levels sharpness saturation contrast ++ size width height ++ rest).map
        (fun i ↦ (i.1, saved i.1 i.2)) =
      levels (unpercent (percent sharpness)) (unpercent (percent saturation))
        (unpercent (percent contrast)) ++ size width height ++ rest := by
  have hspecial : ∀ k ∈ levelNames, k ∈ specials := by decide
  have hself : ∀ i ∈ rest, (i.1, saved i.1 i.2) = id i := by
    intro i hi
    rw [saved, if_neg fun hk ↦ (hrest i hi).notMem (hspecial _ hk)]
    rfl
  have hlevel : ∀ k ∈ levelNames, ∀ n, saved k (.int n) = .int (unpercent (percent n)) := by
    intro k hk n
    rw [saved, if_pos hk, unpercent_percent]
    rfl
  have hsize : ∀ k ∈ [str "height", str "width"], ∀ v, saved k v = v := by
    have hnot : ∀ k ∈ [str "height", str "width"], k ∉ levelNames := by decide
    intro k hk v
    rw [saved, if_neg (hnot k hk)]
  rw [List.map_append, List.map_congr_left hself, List.map_id, levels, size]
  simp only [List.map_append, List.map_cons, List.map_nil,
    hlevel _ (show str "sharpness" ∈ _ by decide),
    hlevel _ (show str "saturation" ∈ _ by decide), hlevel _ (show str "contrast" ∈ _ by decide),
    hsize _ (show str "height" ∈ _ by decide), hsize _ (show str "width" ∈ _ by decide)]
  rfl

/-- What the new file denotes. -/
theorem set_get_holds (o p : Order Bytes Val) (h : Accepted conf) :
    ∃ s d, getRaspimjpegSettings o (some conf) = some s ∧ toOptions p s = some d ∧
      ∀ k, (denoted (render p d)).lookup k = ((completed conf).lookup k).map (saved k) := by
  obtain ⟨sharpness, saturation, contrast, width, height, rest, hrest, hholds⟩ := completed_holds h
  obtain ⟨s, hs, hsettings⟩ := toSettings_holds (o := o) hrest hholds
  obtain ⟨d, hd, hoptions⟩ := toOptions_holds (o := p) hrest hsettings
  rw [← map_saved hrest] at hoptions
  have hread : ∀ i ∈ (levels sharpness saturation contrast ++ size width height ++ rest).map
      (fun i ↦ (i.1, saved i.1 i.2)), Writable i ∧ reread i = id i := by
    intro i hi
    obtain ⟨j, hj, rfl⟩ := List.mem_map.mp hi
    exact reread_saved (read_completed h j.1 j.2 ((hholds.lookup _ _).mpr hj))
  have hperm := perm_options_render (o := p) hoptions fun i hi ↦ (hread i hi).1
  rw [List.map_congr_left fun i hi ↦ (hread i hi).2, List.map_id] at hperm
  have hnodup := ((hperm.map Prod.fst).nodup_iff).mpr hoptions.nodup
  have hdenoted : Holds (denoted (render p d)) _ := (holds_insertAll hnodup).perm hperm
  exact ⟨s, d, by rw [getRaspimjpegSettings, readConf_eq]; exact hs, hd,
    fun k ↦ hholds.lookup_map hdenoted k⟩

/-! ### Lossless files -/

/-- A file denotes the options of its names. -/
theorem isSome_lookup_denoted {k : Bytes} :
    ((denoted conf).lookup k).isSome ↔ k ∈ (options conf).map Prod.fst := by
  constructor
  · intro h
    by_contra hk
    rw [denoted, lookup_insertAll_of_notMem hk, AList.lookup_empty] at h
    cases h
  · exact isSome_lookup_of_mem

/-- With dashes in the names the defaults are all that is added. -/
theorem completed_eq (h : ∀ i ∈ options conf, dashed i.1 = i.1) :
    completed conf = insertAll defaults (options conf) := by
  have hself : ∀ i ∈ options conf, dash i = id i := fun i hi ↦ Prod.ext (h i hi) rfl
  rw [completed, List.map_congr_left hself, List.map_id]

theorem saved_int {k : Bytes} (hk : k ∈ levelNames) (n : Int) :
    saved k (.int n) = .int (n - n % 2) := if_pos hk

/-- The options of the file are read as they are. -/
theorem lookup_completed (hdashed : ∀ i ∈ options conf, dashed i.1 = i.1) {k : Bytes}
    (hk : k ∈ (options conf).map Prod.fst) :
    (completed conf).lookup k = (denoted conf).lookup k := by
  rw [completed_eq hdashed]
  exact lookup_insertAll_congr (.inl hk)

section Same

variable {conf' : Bytes} (h : Accepted conf)
  (hsaved : ∀ k, (denoted conf').lookup k = ((completed conf).lookup k).map (saved k))

include h hsaved

/-- A file that is written back with the same options loses nothing. -/
theorem lossless_of_same (hsame : ∀ k, (denoted conf').lookup k = (denoted conf).lookup k) :
    Lossless conf := by
  have hsome : ∀ k, ((denoted conf).lookup k).isSome = ((completed conf).lookup k).isSome := by
    intro k
    rw [← hsame, hsaved k, Option.isSome_map]
  have hdashed : ∀ i ∈ options conf, dashed i.1 = i.1 := by
    intro i hi
    have hmem := isSome_lookup_denoted.mpr (List.mem_map_of_mem hi)
    rw [hsome] at hmem
    obtain ⟨v, hv⟩ := Option.isSome_iff_exists.mp hmem
    exact (read_completed h _ _ hv).dashed
  refine ⟨?_, hdashed, ?_⟩
  · intro i hi
    apply isSome_lookup_denoted.mp
    rw [hsome]
    apply isSome_lookup_insertAll
    rw [(holds_defaults.lookup i.1 i.2).mpr hi]
    rfl
  · intro k hk n hn
    have hmem : k ∈ (options conf).map Prod.fst := by
      apply isSome_lookup_denoted.mp
      rw [hn]
      rfl
    have hnumber := hsame k
    rw [hsaved, lookup_completed hdashed hmem, hn, Option.map_some, saved_int hk] at hnumber
    injection hnumber with hnumber
    injection hnumber with hnumber
    omega

/-- A file that loses nothing is written back with the same options. -/
theorem same_of_lossless (hlossless : Lossless conf) (k : Bytes) :
    (denoted conf').lookup k = (denoted conf).lookup k := by
  rw [hsaved]
  by_cases hk : k ∈ (options conf).map Prod.fst
  · have hread := lookup_completed hlossless.dashed hk
    rw [hread]
    cases hv : (denoted conf).lookup k with
    | none => rfl
    | some v =>
      rw [Option.map_some]
      by_cases hlevel : k ∈ levelNames
      · have hsized : k ∈ sizedNames := List.mem_append_left _ hlevel
        obtain ⟨n, rfl⟩ := (read_completed h k v (hread.trans hv)).number hsized
        rw [saved_int hlevel, hlossless.even k hlevel n hv, Int.sub_zero]
      · rw [saved, if_neg hlevel]
  · have hdefault : defaults.lookup k = none := by
      apply Option.eq_none_iff_forall_ne_some.mpr
      intro v hv
      exact hk (hlossless.complete (k, v) ((holds_defaults.lookup k v).mp hv))
    rw [completed_eq hlossless.dashed, lookup_insertAll_of_notMem hk, hdefault, denoted,
      lookup_insertAll_of_notMem hk]
    rfl

end Same

/-- Reading a file and writing it back adds the options that the getter knows, turns the names into
names with dashes and lowers the levels to even numbers. Nothing else changes, and nothing changes
at all if and only if the file loses nothing. -/
theorem set_get_raspimjpegConf (o p : Order Bytes Val) (conf : Bytes) (h : Accepted conf) :
    ∃ s conf', getRaspimjpegSettings o (some conf) = some s ∧
      setRaspimjpegSettings p s = some conf' ∧
      (∀ k, (denoted conf').lookup k = ((completed conf).lookup k).map (saved k)) ∧
      ((∀ k, (denoted conf').lookup k = (denoted conf).lookup k) ↔ Lossless conf) := by
  obtain ⟨s, d, hs, hd, hsaved⟩ := set_get_holds o p h
  refine ⟨s, render p d, hs, ?_, hsaved, lossless_of_same h hsaved, same_of_lossless h hsaved⟩
  rw [setRaspimjpegSettings, hd, Option.map_some]

/-- A file with an odd contrast. -/
def edited : Bytes := unlines [str "contrast 25", str "vstab true"]

theorem options_edited :
    options edited = [(str "contrast", .int 25), (str "vstab", .bool true)] := by decide

theorem accepted_edited : Accepted edited := by
  have hstab : str "vstab" ∉ sizedNames := by decide
  constructor
  all_goals
    rw [options_edited]
    simp only [List.forall_mem_cons]
  · exact ⟨fun _ ↦ ⟨25, rfl⟩, fun hmem ↦ absurd hmem hstab, fun _ h ↦ by cases h⟩
  · exact ⟨⟨_, _, rfl, by decide⟩, ⟨_, _, rfl, by decide⟩, fun _ h ↦ by cases h⟩
  · exact ⟨by decide, by decide, fun _ h ↦ by cases h⟩

/-- The file is written with all options and an even contrast. -/
theorem set_get_raspimjpegConf_edited :
    ∃ s conf', getRaspimjpegSettings .stored (some edited) = some s ∧
      setRaspimjpegSettings .stored s = some conf' ∧
      (∀ k, (denoted conf').lookup k = ((completed edited).lookup k).map (saved k)) ∧
      ((∀ k, (denoted conf').lookup k = (denoted edited).lookup k) ↔ Lossless edited) :=
  set_get_raspimjpegConf .stored .stored edited accepted_edited

/-- An odd contrast is lowered. -/
theorem odd_contrast_lowered :
    ∃ s conf', getRaspimjpegSettings .stored (some edited) = some s ∧
      setRaspimjpegSettings .stored s = some conf' ∧
      (denoted edited).lookup (str "contrast") = some (.int 25) ∧
      (denoted conf').lookup (str "contrast") = some (.int 24) := by
  obtain ⟨s, d, hs, hd, hsaved⟩ := set_get_holds .stored .stored accepted_edited
  have hdashed : ∀ i ∈ options edited, dashed i.1 = i.1 := by decide
  have hnames : ((options edited).map Prod.fst).Nodup := by decide
  have hmem : (str "contrast", .int 25) ∈ options edited := by decide
  refine ⟨s, render .stored d, hs, ?_, ?_, ?_⟩
  · rw [setRaspimjpegSettings, hd, Option.map_some]
  · exact (lookup_insertAll hnames).mpr (.inl hmem)
  · rw [hsaved, completed_eq hdashed, (lookup_insertAll hnames).mpr (.inl hmem), Option.map_some,
      saved_int (by decide)]
    rfl

end MotionPie.Board.Raspberrypi.Raspimjpeg
