import MotionPie.Board.Raspberrypi.RaspimjpegConf

/-!
# Options and settings

What the getter and the setter make of the items of a dictionary: three numbers are rescaled, width
and height go into the resolution, and the other options only change their names.
-/

namespace MotionPie.Board.Raspberrypi.Raspimjpeg

open Base

/-- A name that starts with a byte other than a capital letter. -/
def Lower (name : Bytes) : Prop := ∃ b t, name = b :: t ∧ ¬ (65 ≤ b ∧ b ≤ 90)

/-- The options that are not handed on as they are. -/
def specials : List Bytes :=
  [str "sharpness", str "saturation", str "contrast", str "height", str "width", str "resolution"]

/-- The name of an option that is handed on as it is. -/
structure Ordinary (name : Bytes) : Prop where
  lower : Lower name
  notMem : name ∉ specials

/-- The key of a setting. -/
def seName : Bytes → Bytes
  | [] => []
  | b :: name => str "se" ++ upper b :: name

/-- An option under the key of its setting. -/
def se (i : Bytes × Val) : Bytes × Val := (seName i.1, i.2)

/-- The three options that are rescaled. -/
def levels (sharpness saturation contrast : Int) : List (Bytes × Val) :=
  [(str "sharpness", .int sharpness), (str "saturation", .int saturation),
    (str "contrast", .int contrast)]

/-- The size of the picture. -/
def size (width height : Int) : List (Bytes × Val) :=
  [(str "height", .int height), (str "width", .int width)]

/-- The resolution. -/
def resolution (width height : Int) : Bytes × Val :=
  (str "resolution", .text (showInt width ++ 120 :: showInt height))

variable {o : Order Bytes Val} {s : Settings} {l rest : List (Bytes × Val)} {name : Bytes}
  {sharpness saturation contrast width height : Int}

/-! ### Names -/

theorem lower_upper {b : UInt8} (h : ¬ (65 ≤ b ∧ b ≤ 90)) : lower (upper b) = b := by
  unfold upper
  split
  · next hb =>
    have hsub : (b - 32).toNat = b.toNat - 32 := by
      apply UInt8.toNat_sub_of_le
      rw [UInt8.le_iff_toNat_le]
      have hlow := UInt8.le_iff_toNat_le.mp hb.1
      exact le_trans (by decide) hlow
    have hcapital : 65 ≤ b - 32 ∧ b - 32 ≤ 90 := by
      rw [UInt8.le_iff_toNat_le, UInt8.le_iff_toNat_le, hsub]
      have hlow : 97 ≤ b.toNat := UInt8.le_iff_toNat_le.mp hb.1
      have hhigh : b.toNat ≤ 122 := UInt8.le_iff_toNat_le.mp hb.2
      constructor
      · show 65 ≤ b.toNat - 32
        omega
      · show b.toNat - 32 ≤ 90
        omega
    rw [lower, if_pos hcapital, UInt8.sub_add_cancel]
  · rw [lower, if_neg h]

theorem settingName_eq (h : Lower name) : settingName name = some (seName name) := by
  obtain ⟨b, t, rfl, -⟩ := h
  rfl

/-- The setter finds the name of the option in the key of the setting. -/
theorem optionName_seName (h : Lower name) : optionName (seName name) = some name := by
  obtain ⟨b, t, rfl, hb⟩ := h
  exact congrArg (fun c ↦ some (c :: t)) (lower_upper hb)

/-- The keys of the settings that belong to options. -/
theorem renameKeys_settingName (h : Holds s l) (hl : ∀ i ∈ l, Lower i.1) :
    ∃ s', renameKeys o settingName s = some s' ∧ Holds s' (l.map se) := by
  apply h.renameKeys fun i hi ↦ settingName_eq (hl i hi)
  have hcomp : (l.map fun i ↦ seName i.1) = (l.map Prod.fst).map seName := by simp
  rw [hcomp]
  apply List.Nodup.map_on _ h.nodup
  intro n hn n' hn' heq
  obtain ⟨i, hi, rfl⟩ := List.mem_map.mp hn
  obtain ⟨i', hi', rfl⟩ := List.mem_map.mp hn'
  have hname := congrArg optionName heq
  rw [optionName_seName (hl i hi), optionName_seName (hl i' hi')] at hname
  exact Option.some.inj hname

/-- The options that belong to the keys of settings. -/
theorem renameKeys_optionName (h : Holds s (l.map se)) (hl : ∀ i ∈ l, Lower i.1) :
    ∃ s', renameKeys o optionName s = some s' ∧ Holds s' l := by
  have hnodup : (l.map Prod.fst).Nodup := by
    apply List.Nodup.of_map seName
    have hkeys := h.nodup
    rw [List.map_map] at hkeys ⊢
    exact hkeys
  have hback : ∀ i ∈ l, (optionName (seName i.1)).getD [] = i.1 := by
    intro i hi
    rw [optionName_seName (hl i hi)]
    rfl
  have hkeys : l.map ((fun i ↦ (optionName i.1).getD []) ∘ se) = l.map Prod.fst :=
    List.map_congr_left hback
  have hitems : l.map ((fun i ↦ ((optionName i.1).getD [], i.2)) ∘ se) = l.map id :=
    List.map_congr_left fun i hi ↦ Prod.ext (hback i hi) rfl
  obtain ⟨s', hrun, hs'⟩ := h.renameKeys (o := o) (f := optionName)
    (g := fun k ↦ (optionName k).getD []) (by
      intro i hi
      obtain ⟨j, hj, rfl⟩ := List.mem_map.mp hi
      rw [se, hback j hj, optionName_seName (hl j hj)]) (by rwa [List.map_map, hkeys])
  refine ⟨s', hrun, ?_⟩
  rwa [List.map_map, hitems, List.map_id] at hs'

/-! ### Items -/

/-- An ordinary option stays when a special one is deleted. -/
theorem filter_rest (hrest : ∀ i ∈ rest, Ordinary i.1) (hname : name ∈ specials) :
    (rest.filter fun i ↦ i.1 ≠ name) = rest := by
  apply List.filter_eq_self.mpr
  intro i hi
  exact decide_eq_true fun heq ↦ (hrest i hi).notMem (heq ▸ hname)

theorem rescale_eq (f : Int → Int) {n : Int} (h : Holds s l) (hmem : (name, .int n) ∈ l) :
    rescale f name s = some (s.insert name (.int (f n))) := by
  rw [rescale, (h.lookup _ _).mpr hmem]
  rfl

/-- An option is set in front of the others. -/
theorem holds_insert {us vs : List (Bytes × Val)} (h : Holds s (us ++ rest))
    (hrest : ∀ i ∈ rest, Ordinary i.1) (hname : name ∈ specials)
    (hus : (us.filter fun i ↦ i.1 ≠ name) = vs) (v : Val) :
    Holds (s.insert name v) ((name, v) :: vs ++ rest) := by
  have hinsert := h.insert name v
  rwa [List.filter_append, hus, filter_rest hrest hname] at hinsert

/-- An option is deleted. -/
theorem holds_erase {us vs : List (Bytes × Val)} (h : Holds s (us ++ rest))
    (hrest : ∀ i ∈ rest, Ordinary i.1) (hname : name ∈ specials)
    (hus : (us.filter fun i ↦ i.1 ≠ name) = vs) : Holds (s.erase name) (vs ++ rest) := by
  have herase := h.erase name
  rwa [List.filter_append, hus, filter_rest hrest hname] at herase

/-- The three options are rescaled. -/
theorem rescale_levels (f : Int → Int) (hrest : ∀ i ∈ rest, Ordinary i.1)
    (h : Holds s (levels sharpness saturation contrast ++ size width height ++ rest)) :
    ∃ s₁ s₂ s₃, rescale f (str "contrast") s = some s₁ ∧
      rescale f (str "saturation") s₁ = some s₂ ∧ rescale f (str "sharpness") s₂ = some s₃ ∧
      Holds s₃ (levels (f sharpness) (f saturation) (f contrast) ++ size width height ++ rest) := by
  have h₁ : Holds (s.insert (str "contrast") (.int (f contrast)))
      ([(str "contrast", .int (f contrast)), (str "sharpness", .int sharpness),
        (str "saturation", .int saturation)] ++ size width height ++ rest) :=
    holds_insert h hrest (by decide) rfl _
  have h₂ : Holds ((s.insert (str "contrast") (.int (f contrast))).insert (str "saturation")
        (.int (f saturation)))
      ([(str "saturation", .int (f saturation)), (str "contrast", .int (f contrast)),
        (str "sharpness", .int sharpness)] ++ size width height ++ rest) :=
    holds_insert h₁ hrest (by decide) rfl _
  have h₃ := holds_insert h₂ hrest (show str "sharpness" ∈ specials by decide) rfl
    (.int (f sharpness))
  refine ⟨_, _, _, rescale_eq f h ?_, rescale_eq f h₁ ?_, rescale_eq f h₂ ?_, h₃⟩
  · simp [levels]
  · simp
  · simp

theorem lower_of_mem_specials : ∀ n ∈ specials, Lower n := by
  simp only [specials, List.forall_mem_cons]
  refine ⟨?_, ?_, ?_, ?_, ?_, ?_, fun _ h ↦ by cases h⟩
  all_goals exact ⟨_, _, rfl, by decide⟩

/-- All names of the settings can be given keys. -/
theorem lower_items (hrest : ∀ i ∈ rest, Ordinary i.1) :
    ∀ i ∈ resolution width height :: levels sharpness saturation contrast ++ rest, Lower i.1 := by
  have hspecials : ∀ i ∈ resolution width height :: levels sharpness saturation contrast,
      i.1 ∈ specials := by
    simp only [resolution, levels, List.forall_mem_cons]
    exact ⟨by decide, by decide, by decide, by decide, fun _ h ↦ by cases h⟩
  intro i hi
  rcases List.mem_append.mp hi with hi | hi
  · exact lower_of_mem_specials _ (hspecials i hi)
  · exact (hrest i hi).lower

/-- What the getter makes of the options. -/
theorem toSettings_holds (hrest : ∀ i ∈ rest, Ordinary i.1)
    (h : Holds s (levels sharpness saturation contrast ++ size width height ++ rest)) :
    ∃ s', toSettings o s = some s' ∧
      Holds s' ((resolution width height ::
        levels (percent sharpness) (percent saturation) (percent contrast) ++ rest).map se) := by
  obtain ⟨s₁, s₂, s₃, h₁, h₂, h₃, hlevels⟩ := rescale_levels percent hrest h
  have hwidth : s₃.lookup (str "width") = some (.int width) :=
    (hlevels.lookup _ _).mpr (by simp [size])
  have hheight : s₃.lookup (str "height") = some (.int height) :=
    (hlevels.lookup _ _).mpr (by simp [size])
  have herase : Holds ((s₃.erase (str "width")).erase (str "height"))
      (levels (percent sharpness) (percent saturation) (percent contrast) ++ rest) :=
    holds_erase (holds_erase hlevels hrest (by decide) rfl) hrest (by decide) rfl
  have hresolution := holds_insert herase hrest (show str "resolution" ∈ specials by decide) rfl
    (.text (showInt width ++ 120 :: showInt height))
  obtain ⟨s', hrun, hs'⟩ := renameKeys_settingName (o := o) hresolution (lower_items hrest)
  refine ⟨s', ?_, hs'⟩
  simp only [toSettings, h₁, h₂, h₃, hwidth, hheight, Option.bind_eq_bind, Option.bind_some]
  exact hrun

/-- What the setter makes of the settings. -/
theorem toOptions_holds (hrest : ∀ i ∈ rest, Ordinary i.1)
    (h : Holds s ((resolution width height ::
      levels sharpness saturation contrast ++ rest).map se)) :
    ∃ s', toOptions o s = some s' ∧
      Holds s' (levels (unpercent sharpness) (unpercent saturation) (unpercent contrast) ++
        size width height ++ rest) := by
  obtain ⟨s₀, hrename, h₀⟩ := renameKeys_optionName (o := o) h (lower_items hrest)
  have hlookup : s₀.lookup (str "resolution") =
      some (.text (showInt width ++ 120 :: showInt height)) :=
    (h₀.lookup _ _).mpr (by simp [resolution])
  have hnot : ∀ n : Int, 120 ∉ showInt n := notMem_showInt (by decide)
  have hsplit : (Val.text (showInt width ++ 120 :: showInt height)).splitX =
      some [showInt width, showInt height] := by
    have hlength : (showInt width ++ 120 :: showInt height).length =
        (showInt width).length + (showInt height).length + 1 := by
      simp [Nat.add_assoc]
    rw [Val.splitX, hlength, split_append (hnot width), split_of_notMem (hnot height)]
  have hsize : Holds (((s₀.insert (str "width") (.int width)).erase (str "resolution")).insert
        (str "height") (.int height))
      (size width height ++ levels sharpness saturation contrast ++ rest) :=
    holds_insert (holds_erase (holds_insert h₀ hrest (by decide) rfl _) hrest (by decide) rfl)
      hrest (by decide) rfl _
  have hperm := hsize.perm ((List.perm_append_comm).append_right rest)
  obtain ⟨s₁, s₂, s₃, h₁, h₂, h₃, hlevels⟩ := rescale_levels unpercent hrest hperm
  refine ⟨s₃, ?_, hlevels⟩
  simp only [toOptions, hrename, hlookup, hsplit, Option.bind_eq_bind, Option.bind_some]
  simp only [List.getElem?_cons_zero, List.getElem?_cons_succ, Option.bind_some, toInt_showInt, h₁,
    h₂, h₃]

end MotionPie.Board.Raspberrypi.Raspimjpeg
