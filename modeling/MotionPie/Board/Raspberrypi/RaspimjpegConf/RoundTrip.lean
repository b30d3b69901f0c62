import MotionPie.Board.Raspberrypi.RaspimjpegConf.Files
import MotionPie.Board.Raspberrypi.RaspimjpegOpts

/-!
# Settings of a camera

The settings that the user interface offers are read back as they were written, except that a
rotation that was chosen is read back as a number. The command line of `raspimjpeg.py` has the
options of the file in their order.
-/

namespace MotionPie.Board.Raspberrypi.Raspimjpeg

open Base Shell
open Package.Motioneye.Extractl (dashed Readable)

/-! ### Declared settings -/

/-- The names of the options that the getter knows. -/
def optionNames : List Bytes := defaultItems.map Prod.fst

/-- The options that are handed on as they are. -/
def ordinaryNames : List Bytes := optionNames.filter (· ∉ specials)

/-- The options with a number. -/
def numbers : List Bytes :=
  [str "brightness", str "iso", str "ev", str "shutter", str "rotation", str "framerate",
    str "quality"]

/-- The options with a boolean. -/
def flags : List Bytes := [str "vstab", str "vflip", str "hflip"]

/-- The options with choices, `streameyectl.py:35-101` and `streameyectl.py:121-126`. -/
def choices : List (Bytes × List Bytes) :=
  [(str "exposure",
      [str "off", str "auto", str "night", str "nightpreview", str "backlight", str "spotlight",
        str "sports", str "snow", str "beach", str "verylong", str "fixedfps", str "antishake",
        str "fireworks"]),
    (str "awb",
      [str "off", str "auto", str "sunlight", str "cloudy", str "shade", str "tungsten",
        str "fluorescent", str "incandescent", str "flash", str "horizon"]),
    (str "metering", [str "average", str "spot", str "backlit", str "matrix"]),
    (str "drc", [str "off", str "low", str "medium", str "hight"]),
    (str "imxfx",
      [str "none", str "negative", str "solarize", str "sketch", str "denoise", str "emboss",
        str "oilpaint", str "hatch", str "gpen", str "pastel", str "watercolor", str "film",
        str "blur", str "saturation", str "colorswap", str "washedout", str "posterise",
        str "colorpoint", str "colorbalance", str "cartoon", str "deinterlace1",
        str "deinterlace2"]),
    (str "rotation", [str "0", str "90", str "180", str "270"])]

/-- An option with a value that is declared for it. -/
inductive Declared : Bytes × Val → Prop
  | number {name : Bytes} (h : name ∈ numbers) (n : Int) : Declared (name, .int n)
  | flag {name : Bytes} (h : name ∈ flags) (b : Bool) : Declared (name, .bool b)
  | choice {c : Bytes × List Bytes} {t : Bytes} (hc : c ∈ choices) (ht : t ∈ c.2) :
    Declared (c.1, .text t)

/-- What the settings of a camera say. -/
structure Camera where
  width : Int
  height : Int
  sharpness : Int
  saturation : Int
  contrast : Int
  rest : List (Bytes × Val)
  names : rest.map Prod.fst = ordinaryNames
  declared : ∀ i ∈ rest, Declared i

/-- The items of the settings. -/
def Camera.items (c : Camera) : List (Bytes × Val) :=
  (resolution c.width c.height :: levels c.sharpness c.saturation c.contrast ++ c.rest).map se

/-- A text that is a number, as that number. -/
def asNumber : Val → Val
  | .text t => (toInt t).elim (.text t) .int
  | v => v

/-- A setting as it is read back. -/
def settled (k : Bytes) (v : Val) : Val := if k = str "seRotation" then asNumber v else v

variable {o p : Order Bytes Val} {s : Settings} {i : Bytes × Val}
  {rest : List (Bytes × Val)} {sharpness saturation contrast width height : Int}

/-! ### Writing and reading -/

/-- Options in a file, with the three levels as raspimjpeg takes them. -/
def fileItems (sharpness saturation contrast width height : Int) (rest : List (Bytes × Val)) :
    List (Bytes × Val) :=
  levels (unpercent sharpness) (unpercent saturation) (unpercent contrast) ++ size width height ++
    rest

/-- A level comes back. -/
theorem percent_unpercent (n : Int) : percent (unpercent n) = n := by
  unfold percent unpercent
  omega

/-- An option in the file is a number or one of the rest. -/
theorem mem_fileItems (h : i ∈ fileItems sharpness saturation contrast width height rest) :
    (∃ name ∈ optionNames, ∃ n, i = (name, .int n)) ∨ i ∈ rest := by
  rcases List.mem_append.mp h with hi | hi
  · left
    simp only [levels, size, List.cons_append, List.nil_append, List.mem_cons, List.not_mem_nil,
      or_false] at hi
    rcases hi with rfl | rfl | rfl | rfl | rfl
    all_goals exact ⟨_, by decide, _, rfl⟩
  · exact .inr hi

/-- The numbers are read back as they are. -/
theorem map_reread_fileItems :
    (fileItems sharpness saturation contrast width height rest).map reread =
      fileItems sharpness saturation contrast width height (rest.map reread) := by
  have hint : ∀ (name : Bytes) (n : Int), reread (name, .int n) = (name, .int n) := by
    intro name n
    exact congrArg (name, ·) (readVal_showInt n)
  simp only [fileItems, levels, size, List.map_append, List.map_cons, List.map_nil, hint]

/-- The file that the setter writes, and what the getter makes of it. -/
theorem get_set_holds (hrest : ∀ i ∈ rest, Ordinary i.1)
    (hwritable : ∀ i ∈ fileItems sharpness saturation contrast width height rest, Writable i)
    (hdashed : ∀ i ∈ fileItems sharpness saturation contrast width height rest, dashed i.1 = i.1)
    (hall : ∀ n ∈ optionNames,
      n ∈ (fileItems sharpness saturation contrast width height rest).map Prod.fst)
    (h : Holds s ((resolution width height ::
      levels sharpness saturation contrast ++ rest).map se)) :
    ∃ d s', toOptions o s = some d ∧
      Holds d (fileItems sharpness saturation contrast width height rest) ∧
      getRaspimjpegSettings p (some (render o d)) = some s' ∧
      Holds s' ((resolution width height ::
        levels sharpness saturation contrast ++ rest.map reread).map se) := by
  obtain ⟨d, hd, hholds⟩ := toOptions_holds (o := o) hrest h
  have hread := readConf_render (o := o) hholds hwritable hdashed fun i hi ↦
    hall i.1 (List.mem_map_of_mem hi)
  change Holds _ (List.map reread (fileItems _ _ _ _ _ _)) at hread
  rw [map_reread_fileItems] at hread
  have hrest' : ∀ i ∈ rest.map reread, Ordinary i.1 := by
    intro i hi
    obtain ⟨j, hj, rfl⟩ := List.mem_map.mp hi
    exact hrest j hj
  obtain ⟨s', hs', hsettings⟩ := toSettings_holds (o := p) hrest' hread
  rw [percent_unpercent, percent_unpercent, percent_unpercent] at hsettings
  exact ⟨d, s', hd, hholds, hs', hsettings⟩

/-! ### Declared options -/

/-- What the names and the choices are made of. -/
def PlainWord (s : Bytes) : Prop := s ≠ [] ∧ (∀ b ∈ s, isPlain b = true) ∧ Neutral s

instance (s : Bytes) : Decidable (PlainWord s) := inferInstanceAs (Decidable (_ ∧ _ ∧ _))

theorem plainWord_of_mem_optionNames : ∀ n ∈ optionNames, PlainWord n := by decide +kernel

theorem plainWord_of_mem_choices : ∀ c ∈ choices, ∀ t ∈ c.2, PlainWord t := by decide +kernel

theorem passed_int {name : Bytes} (h : name ∈ optionNames) (n : Int) : Passed (name, .int n) := by
  obtain ⟨hne, hplain, hneutral⟩ := plainWord_of_mem_optionNames name h
  refine ⟨hne, hplain, hneutral, showInt_ne_nil n, fun _ ↦ isPlain_of_mem_showInt, ?_⟩
  intro t ht
  cases ht

/-- A declared option has a name of its own. -/
theorem Declared.mem_ordinaryNames (h : Declared i) : i.1 ∈ ordinaryNames := by
  have hnumbers : ∀ n ∈ numbers, n ∈ ordinaryNames := by decide
  have hflags : ∀ n ∈ flags, n ∈ ordinaryNames := by decide
  have hchoices : ∀ c ∈ choices, c.1 ∈ ordinaryNames := by decide
  cases h with
  | number h n => exact hnumbers _ h
  | flag h b => exact hflags _ h
  | choice hc ht => exact hchoices _ hc

theorem ordinary_of_mem {name : Bytes} (h : name ∈ ordinaryNames) : Ordinary name := by
  have hcapital : ∀ n ∈ optionNames, ∀ b ∈ n.head?, ¬ (65 ≤ b ∧ b ≤ 90) := by decide
  obtain ⟨hmem, hspecial⟩ := List.mem_filter.mp h
  refine ⟨?_, of_decide_eq_true hspecial⟩
  cases name with
  | nil => exact absurd rfl (plainWord_of_mem_optionNames [] hmem).1
  | cons b t => exact ⟨b, t, rfl, hcapital _ hmem b rfl⟩

/-- The script hands a declared option on. -/
theorem Declared.passed (h : Declared i) : Passed i := by
  have hmem : i.1 ∈ optionNames := List.mem_of_mem_filter h.mem_ordinaryNames
  obtain ⟨hne, hplain, hneutral⟩ := plainWord_of_mem_optionNames _ hmem
  cases h with
  | number h n => exact passed_int hmem n
  | flag h b =>
    have hbool : ∀ b, optionText (.bool b) ≠ [] ∧ ∀ c ∈ optionText (.bool b), isPlain c = true := by
      decide
    refine ⟨hne, hplain, hneutral, (hbool b).1, (hbool b).2, ?_⟩
    intro t ht
    cases ht
  | choice hc ht =>
    obtain ⟨hne', hplain', hneutral'⟩ := plainWord_of_mem_choices _ hc _ ht
    refine ⟨hne, hplain, hneutral, hne', hplain', ?_⟩
    rintro t ⟨⟩
    exact hneutral'

/-- What is read back of a declared option: a rotation is a number. -/
theorem Declared.se_reread (h : Declared i) :
    se (reread i) = (seName i.1, settled (seName i.1) i.2) := by
  have hchoices : ∀ c ∈ choices, ∀ t ∈ c.2,
      readVal t = settled (seName c.1) (.text t) := by decide +kernel
  cases h with
  | number h n =>
    have hsettled : ∀ k, settled k (.int n) = .int n := by
      intro k
      rw [settled]
      split <;> rfl
    rw [hsettled]
    exact congrArg (seName _, ·) (readVal_showInt n)
  | flag h b =>
    have hsettled : ∀ k, settled k (.bool b) = .bool b := by
      intro k
      rw [settled]
      split <;> rfl
    rw [hsettled]
    cases b <;> rfl
  | choice hc ht => exact congrArg (seName _, ·) (hchoices _ hc _ ht)

/-- The arguments are those of the option that is read back. -/
theorem Declared.optionArgs_reread (h : Declared i) : optionArgs (reread i) = optionArgs i := by
  have hchoices : ∀ c ∈ choices, ∀ t ∈ c.2,
      optionArgs (c.1, readVal t) = optionArgs (c.1, .text t) := by decide +kernel
  cases h with
  | number h n =>
    rw [reread, optionText]
    · exact congrArg (fun v ↦ optionArgs (_, v)) (readVal_showInt n)
    · intro b hb
      cases hb
  | flag h b => cases b <;> rfl
  | choice hc ht => exact hchoices _ hc _ ht

/-! ### The round trip -/

/-- The options that are written for a camera. -/
def Camera.written (c : Camera) : List (Bytes × Val) :=
  fileItems c.sharpness c.saturation c.contrast c.width c.height c.rest

variable (c : Camera)

theorem Camera.ordinary : ∀ i ∈ c.rest, Ordinary i.1 := fun i hi ↦
  ordinary_of_mem (c.declared i hi).mem_ordinaryNames

/-- The names of the options that are written. -/
theorem Camera.map_fst_written : c.written.map Prod.fst =
      [str "sharpness", str "saturation", str "contrast", str "height", str "width"] ++
        ordinaryNames := by
  rw [written, fileItems, List.map_append, c.names]
  rfl

/-- The options that are written are handed on by the script. -/
theorem Camera.passed_written : ∀ i ∈ c.written, Passed i := by
  intro i hi
  rcases mem_fileItems hi with ⟨name, hname, n, rfl⟩ | hi
  · exact passed_int hname n
  · exact (c.declared i hi).passed

/-- An option of the file has the arguments of the option that was written. -/
theorem Camera.optionArgs_reread :
    ∀ i ∈ c.written, optionArgs (reread i) = optionArgs i := by
  intro i hi
  rcases mem_fileItems hi with ⟨name, hname, n, rfl⟩ | hi
  · exact congrArg (fun v ↦ optionArgs (name, v)) (readVal_showInt n)
  · exact (c.declared i hi).optionArgs_reread

/-- The settings that are read back. -/
theorem Camera.map_se_reread :
    (resolution c.width c.height :: levels c.sharpness c.saturation c.contrast ++
      c.rest.map reread).map se = c.items.map fun i ↦ (i.1, settled i.1 i.2) := by
  have hrest : c.rest.map (se ∘ reread) =
      c.rest.map ((fun i ↦ (i.1, settled i.1 i.2)) ∘ se) :=
    List.map_congr_left fun i hi ↦ (c.declared i hi).se_reread
  rw [Camera.items, List.map_append, List.map_append, List.map_append, List.map_map, List.map_map,
    List.map_map, hrest]
  rfl

/-- What is written for the settings of a camera, and what is read back. -/
theorem Camera.get_set_holds (h : Holds s c.items) :
    ∃ d s', toOptions o s = some d ∧ Holds d c.written ∧
      getRaspimjpegSettings p (some (render o d)) = some s' ∧
      ∀ k, s'.lookup k = (s.lookup k).map (settled k) := by
  have hnames : ∀ i ∈ c.written, dashed i.1 = i.1 := by
    intro i hi
    have hmem := List.mem_map_of_mem (f := Prod.fst) hi
    rw [c.map_fst_written] at hmem
    have hall : ∀ n ∈ [str "sharpness", str "saturation", str "contrast", str "height",
        str "width"] ++ ordinaryNames, dashed n = n := by decide
    exact hall _ hmem
  have hall : ∀ n ∈ optionNames, n ∈ c.written.map Prod.fst := by
    rw [c.map_fst_written]
    decide
  obtain ⟨d, s', hd, hholds, hs', hsettings⟩ := Raspimjpeg.get_set_holds (o := o) (p := p)
    c.ordinary (fun i hi ↦ (c.passed_written i hi).writable) hnames hall h
  rw [c.map_se_reread] at hsettings
  exact ⟨d, s', hd, hholds, hs', fun k ↦ h.lookup_map hsettings k⟩

/-- After `_set_raspimjpeg_settings` the getter returns the settings of the camera, a rotation as a
number, and the script hands the options of the file on in their order. -/
theorem get_set_raspimjpegSettings (o p : Order Bytes Val) (g : Globbing)
    (names : Bytes → List Bytes) (motioneyeConf : Option Bytes) (c : Camera) (s : Settings)
    (h : Holds s c.items) :
    ∃ conf s', setRaspimjpegSettings o s = some conf ∧
      getRaspimjpegSettings p (some conf) = some s' ∧
      (∀ k, s'.lookup k = (s.lookup k).map (settled k)) ∧
      raspimjpegArgs g names conf motioneyeConf =
        (options conf).flatMap optionArgs ++ debugArgs motioneyeConf := by
  obtain ⟨d, s', hd, hholds, hs', hsettings⟩ := c.get_set_holds (o := o) (p := p) h
  have hperm := perm_sortedItems (o := o) hholds
  have hpassed : ∀ i ∈ sortedItems o d, Passed i := fun i hi ↦
    c.passed_written i (hperm.mem_iff.mp hi)
  have hoptions : (options (render o d)).flatMap optionArgs =
      (sortedItems o d).flatMap optionArgs := by
    rw [render, options_unlines fun i hi ↦ (hpassed i hi).writable, List.flatMap_map]
    exact List.flatMap_congr fun i hi ↦ c.optionArgs_reread i (hperm.mem_iff.mp hi)
  refine ⟨render o d, s', ?_, hs', hsettings, ?_⟩
  · rw [setRaspimjpegSettings, hd, Option.map_some]
  · rw [hoptions]
    exact raspimjpegArgs_unlines hpassed motioneyeConf

/-- The default options that are handed on as they are, with a rotation. -/
def restItems (rotation : Val) : List (Bytes × Val) :=
  [(str "brightness", .int 50), (str "iso", .int 400), (str "ev", .int 0), (str "shutter", .int 0),
    (str "exposure", .text (str "auto")), (str "awb", .text (str "auto")),
    (str "metering", .text (str "average")), (str "drc", .text (str "off")),
    (str "vstab", .bool false), (str "imxfx", .text (str "none")), (str "rotation", rotation),
    (str "vflip", .bool false), (str "hflip", .bool false), (str "framerate", .int 15),
    (str "quality", .int 25)]

theorem declared_restItems {rotation : Val} (h : Declared (str "rotation", rotation)) :
    ∀ i ∈ restItems rotation, Declared i := by
  have hchoice : ∀ c ∈ choices, ∀ t ∈ c.2, Declared (c.1, .text t) := fun c hc t ht ↦
    .choice hc ht
  simp only [choices, List.forall_mem_cons] at hchoice
  obtain ⟨⟨_, hexposure, _⟩, ⟨_, hawb, _⟩, ⟨hmetering, _⟩, ⟨hdrc, _⟩, ⟨himxfx, _⟩, _⟩ := hchoice
  simp only [restItems, List.forall_mem_cons]
  refine ⟨.number (by decide) _, .number (by decide) _, .number (by decide) _,
    .number (by decide) _, hexposure, hawb, hmetering, hdrc, .flag (by decide) _, himxfx, h,
    .flag (by decide) _, .flag (by decide) _, .number (by decide) _, .number (by decide) _, ?_⟩
  intro i hi
  cases hi

/-- A camera with the defaults and a rotation. -/
def rotated (rotation : Val) (h : Declared (str "rotation", rotation)) : Camera where
  width := 640
  height := 480
  sharpness := 50
  saturation := 50
  contrast := 50
  rest := restItems rotation
  names := rfl
  declared := declared_restItems h

/-- The camera with the default options. -/
def usual : Camera := rotated (.int 0) (.number (by decide) 0)

/-- Without a file the getter returns the settings of a camera. -/
theorem getRaspimjpegSettings_none (o : Order Bytes Val) :
    ∃ s, getRaspimjpegSettings o none = some s ∧ Holds s usual.items := by
  have hperm : defaultItems.Perm (levels 0 0 0 ++ size 640 480 ++ usual.rest) := by decide
  have hnone : readConf none = defaults := by simp [readConf, readlines]
  have hlevel : percent 0 = 50 := by decide
  obtain ⟨s, hs, hholds⟩ := toSettings_holds (o := o) usual.ordinary (holds_defaults.perm hperm)
  rw [hlevel] at hholds
  rw [← hnone] at hs
  exact ⟨s, hs, hholds⟩

/-- The default settings. -/
theorem get_set_raspimjpegSettings_usual :
    ∃ conf s', setRaspimjpegSettings .stored (insertAll ∅ usual.items) = some conf ∧
      getRaspimjpegSettings .stored (some conf) = some s' ∧
      (∀ k, s'.lookup k = ((insertAll ∅ usual.items).lookup k).map (settled k)) ∧
      raspimjpegArgs anyPattern (fun _ ↦ []) conf none =
        (options conf).flatMap optionArgs ++ debugArgs none :=
  get_set_raspimjpegSettings .stored .stored anyPattern (fun _ ↦ []) none usual _
    (holds_insertAll (by decide))

/-- The choice for a quarter turn. -/
theorem declared_quarter : Declared (str "rotation", .text (str "90")) :=
  .choice (c := (str "rotation", [str "0", str "90", str "180", str "270"])) (by decide) (by decide)

/-- The settings with a quarter turn that was chosen. -/
def turned : Settings := insertAll ∅ (rotated (.text (str "90")) declared_quarter).items

/-- A rotation that was chosen is read back as a number. -/
theorem turned_not_kept :
    Holds turned (rotated (.text (str "90")) declared_quarter).items ∧
      ∃ conf s', setRaspimjpegSettings .stored turned = some conf ∧
        getRaspimjpegSettings .stored (some conf) = some s' ∧
        turned.lookup (str "seRotation") = some (.text (str "90")) ∧
        s'.lookup (str "seRotation") = some (.int 90) := by
  have hholds : Holds turned (rotated (.text (str "90")) declared_quarter).items :=
    holds_insertAll (by decide)
  obtain ⟨d, s', hd, -, hs', hsettings⟩ :=
    Camera.get_set_holds (o := .stored) (p := .stored) _ hholds
  have hchosen : turned.lookup (str "seRotation") = some (.text (str "90")) :=
    (hholds.lookup _ _).mpr (by decide)
  refine ⟨hholds, render .stored d, s', ?_, hs', hchosen, ?_⟩
  · rw [setRaspimjpegSettings, hd, Option.map_some]
  · rw [hsettings, hchosen]
    decide

end MotionPie.Board.Raspberrypi.Raspimjpeg
