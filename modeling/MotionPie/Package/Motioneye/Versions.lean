import MotionPie.Base.Text
import MotionPie.Base.TwoOrders
import Mathlib.Data.List.Lex

/-!
# The versions that can be installed

`get_all_versions` lists the releases of the repository. Its loop over the assets of a release looks
for an image of the board, but goes on with the next asset either way. The list is sorted by the text
of the names; `compare_versions` compares their numbers.
-/

namespace MotionPie.Package.Motioneye

open Base

/-- An asset of a release. Its name may be missing or null. -/
structure Asset where
  name : Option Bytes

/-- A release. Its name may be missing or null. -/
structure Release where
  name : Option Bytes
  prerelease : Bool
  assets : List Asset

/-- The end of an image's name after its date: `.img`, one more character and `gz`. The pattern's
`$` also matches before a newline at the end. -/
def matchEnd (s : Bytes) : Bool :=
  (str ".img").isPrefixOf s &&
    match s.drop 4 with
    | [b, 103, 122] | [b, 103, 122, 10] => b != newline
    | _ => false

/-- `re.match('^motionpie-%s-\d{8}\.img.gz$' % _BOARD, name)`. -/
def matchImage (board name : Bytes) : Bool :=
  let start := str "motionpie-" ++ board ++ str "-"
  let rest := name.drop start.length
  start.isPrefixOf name && (rest.take 8).length == 8 && (rest.take 8).all isDigit &&
    matchEnd (rest.drop 8)

section GetAllVersions

variable (board : Bytes) (prereleases : Bool)

/-- The loop over the assets of a release. Both ways through its body lead to the next asset. -/
def scanAssets : List Asset → Option Unit
  | [] => some ()
  | asset :: assets => do
    let name ← asset.name
    if !matchImage board name then scanAssets assets else scanAssets assets

/-- The loop over the releases. -/
def listVersions : List Release → Option (List Bytes)
  | [] => some []
  | release :: releases =>
    if release.prerelease && !prereleases then listVersions releases
    else do
      scanAssets board release.assets
      let name ← release.name
      let versions ← listVersions releases
      pure (name :: versions)

/-- `get_all_versions`. The response is missing when the releases could not be fetched; every
exception ends with the empty list. -/
def getAllVersions (response : Option (List Release)) : List Bytes :=
  match response.bind (listVersions board prereleases) with
  | some versions => versions.insertionSort (· ≤ ·)
  | none => []

end GetAllVersions

/-- `[int(n) for n in version.split('.')]`. -/
def numbers (version : Bytes) : Option (List Int) := (split 46 version.length version).mapM toInt

/-- The loop of `compare_versions` and the comparison of the lengths after it. -/
def compareNumbers (len1 len2 : Nat) : List (Int × Int) → Int
  | [] => if len1 < len2 then -1 else if len1 > len2 then 1 else 0
  | (p1, p2) :: ps => if p1 < p2 then -1 else if p1 > p2 then 1 else compareNumbers len1 len2 ps

/-- `compare_versions`. -/
def compareVersions (version1 version2 : Bytes) : Option Int := do
  let version1 ← numbers version1
  let version2 ← numbers version2
  pure (compareNumbers version1.length version2.length (version1.zip version2))

/-! ### Release selection -/

/-- The name of an image of the board. -/
def imageName (board date : Bytes) : Bytes :=
  str "motionpie-" ++ board ++ str "-" ++ date ++ str ".img.gz"

/-- The release is not a prerelease, or prereleases are enabled. -/
def Release.Shown (prereleases : Bool) (r : Release) : Prop :=
  r.prerelease = false ∨ prereleases = true

/-- The release and all of its assets have names. -/
def Release.Named (r : Release) : Prop :=
  (∃ v, r.name = some v) ∧ ∀ a ∈ r.assets, ∃ v, a.name = some v

/-- One of the assets is an image of the board. -/
def Release.HasImage (board : Bytes) (r : Release) : Prop :=
  ∃ a ∈ r.assets, ∃ date : Bytes, date.length = 8 ∧ (∀ b ∈ date, isDigit b = true) ∧
    a.name = some (imageName board date)

/-- The names of the releases that are shown. -/
def shownNames (prereleases : Bool) (releases : List Release) : List Bytes :=
  (releases.filter fun r ↦ !(r.prerelease && !prereleases)).filterMap (·.name)

/-- The list holds exactly the names of the releases that are shown and have an image of the
board. -/
def SelectsImages (board : Bytes) (prereleases : Bool) (releases : List Release) : Prop :=
  ∀ v, v ∈ getAllVersions board prereleases (some releases) ↔
    ∃ r ∈ releases, r.Shown prereleases ∧ r.HasImage board ∧ r.name = some v

variable {board : Bytes} {prereleases : Bool} {releases : List Release}

theorem Release.skipped_eq_false_iff {r : Release} :
    (r.prerelease && !prereleases) = false ↔ r.Shown prereleases := by
  rw [Release.Shown, Bool.and_eq_false_iff, Bool.not_eq_false']

theorem mem_shownNames {v : Bytes} :
    v ∈ shownNames prereleases releases ↔
      ∃ r ∈ releases, r.Shown prereleases ∧ r.name = some v := by
  simp only [shownNames, List.mem_filterMap, List.mem_filter, Bool.not_eq_true',
    Release.skipped_eq_false_iff, and_assoc]

/-- The loop over the assets raises for an asset without a name, and does nothing else. -/
theorem scanAssets_eq_some_iff {assets : List Asset} :
    scanAssets board assets = some () ↔ ∀ a ∈ assets, ∃ v, a.name = some v := by
  induction assets with
  | nil => simp [scanAssets]
  | cons a assets ih =>
    rw [List.forall_mem_cons, ← ih, scanAssets]
    cases a.name <;> simp

/-- The names of the shown releases, when all of them are named. -/
theorem listVersions_of_named (h : ∀ r ∈ releases, r.Shown prereleases → r.Named) :
    listVersions board prereleases releases = some (shownNames prereleases releases) := by
  induction releases with
  | nil => rfl
  | cons r releases ih =>
    rw [List.forall_mem_cons] at h
    specialize ih h.2
    rw [listVersions, shownNames, List.filter_cons]
    by_cases hshown : r.Shown prereleases
    · obtain ⟨⟨v, hv⟩, hassets⟩ := h.1 hshown
      rw [Release.skipped_eq_false_iff.mpr hshown, if_neg Bool.false_ne_true, Bool.not_false,
        if_pos rfl, scanAssets_eq_some_iff.mpr hassets, ih, List.filterMap_cons_some hv, hv]
      rfl
    · have hskipped := (Bool.not_eq_false _).mp (mt Release.skipped_eq_false_iff.mp hshown)
      rw [hskipped, if_pos rfl, Bool.not_true, if_neg Bool.false_ne_true, ih]
      rfl

/-- A shown release without a name, or with an asset without one, raises. -/
theorem listVersions_of_unnamed (h : ∃ r ∈ releases, r.Shown prereleases ∧ ¬ r.Named) :
    listVersions board prereleases releases = none := by
  induction releases with
  | nil =>
    obtain ⟨r, hr, -⟩ := h
    cases hr
  | cons r releases ih =>
    rw [List.exists_mem_cons_iff] at h
    rw [listVersions]
    split
    · next hskipped =>
      apply ih
      apply h.resolve_left
      rintro ⟨hshown, -⟩
      rw [Release.skipped_eq_false_iff.mpr hshown] at hskipped
      cases hskipped
    · cases hassets : scanAssets board r.assets with
      | none => rfl
      | some u =>
        cases hname : r.name with
        | none => rfl
        | some v =>
          have hnamed : r.Named := ⟨⟨v, hname⟩, scanAssets_eq_some_iff.mp hassets⟩
          rw [ih (h.resolve_left fun hr ↦ hr.2 hnamed)]
          rfl

/-- The versions that are listed when all the shown releases are named. -/
theorem getAllVersions_of_named (h : ∀ r ∈ releases, r.Shown prereleases → r.Named) :
    getAllVersions board prereleases (some releases) =
      (shownNames prereleases releases).insertionSort (· ≤ ·) := by
  rw [getAllVersions, Option.bind_some, listVersions_of_named h]

/-- Nothing is listed when a shown release is not named. -/
theorem getAllVersions_of_unnamed (h : ∃ r ∈ releases, r.Shown prereleases ∧ ¬ r.Named) :
    getAllVersions board prereleases (some releases) = [] := by
  rw [getAllVersions, Option.bind_some, listVersions_of_unnamed h]

/-- The list is right if and only if every shown release is named and shares its name with one that
has an image, or a shown release is not named and none that has an image has a name. -/
theorem selectsImages_iff :
    SelectsImages board prereleases releases ↔
      (∀ r ∈ releases, r.Shown prereleases → r.Named ∧
        ∃ r' ∈ releases, r'.Shown prereleases ∧ r'.HasImage board ∧ r'.name = r.name) ∨
      (∃ r ∈ releases, r.Shown prereleases ∧ ¬ r.Named) ∧
        ∀ r ∈ releases, r.Shown prereleases → r.HasImage board → r.name = none := by
  by_cases hnamed : ∀ r ∈ releases, r.Shown prereleases → r.Named
  · have hnot : ¬ ∃ r ∈ releases, r.Shown prereleases ∧ ¬ r.Named := by
      rintro ⟨r, hr, hshown, hunnamed⟩
      exact hunnamed (hnamed r hr hshown)
    rw [or_iff_left fun h ↦ hnot h.1]
    simp only [SelectsImages, getAllVersions_of_named hnamed, List.mem_insertionSort,
      mem_shownNames]
    constructor
    · intro h r hr hshown
      obtain ⟨⟨v, hv⟩, -⟩ := hnamed r hr hshown
      rw [hv]
      exact ⟨hnamed r hr hshown, (h v).mp ⟨r, hr, hshown, hv⟩⟩
    · intro h v
      constructor
      · rintro ⟨r, hr, hshown, hv⟩
        rw [← hv]
        exact (h r hr hshown).2
      · rintro ⟨r, hr, hshown, -, hv⟩
        exact ⟨r, hr, hshown, hv⟩
  · have hunnamed : ∃ r ∈ releases, r.Shown prereleases ∧ ¬ r.Named := by
      push Not at hnamed
      exact hnamed
    have hnot : ¬ ∀ r ∈ releases, r.Shown prereleases → r.Named ∧
        ∃ r' ∈ releases, r'.Shown prereleases ∧ r'.HasImage board ∧ r'.name = r.name :=
      fun h ↦ hnamed fun r hr hshown ↦ (h r hr hshown).1
    rw [or_iff_right hnot, and_iff_right hunnamed]
    simp only [SelectsImages, getAllVersions_of_unnamed hunnamed, List.not_mem_nil, false_iff]
    constructor
    · intro h r hr hshown himage
      apply Option.eq_none_iff_forall_ne_some.mpr
      intro v hv
      exact h v ⟨r, hr, hshown, himage, hv⟩
    · rintro h v ⟨r, hr, hshown, himage, hv⟩
      rw [h r hr hshown himage] at hv
      cases hv

/-- A release for another board is offered. -/
theorem other_board_not_selected :
    ¬ SelectsImages (str "raspberrypi") false
      [⟨some (str "20150922"), false, [⟨some (str "motionpie-odroidc1-20150922.img.gz")⟩]⟩] := by
  intro h
  obtain ⟨r, hr, -, ⟨a, ha, date, -, -, hname⟩, -⟩ := (h (str "20150922")).mp (by decide +kernel)
  rw [List.mem_singleton] at hr
  subst hr
  rw [List.mem_singleton] at ha
  subst ha
  have htenth := congrArg (fun s ↦ s.bind (·[10]?)) hname
  revert htenth
  simp [imageName, str]

/-! ### Version order -/

/-- `compare_versions` does not put the first version after the second one. -/
def NotAfter (version1 version2 : Bytes) : Prop :=
  ∃ c, compareVersions version1 version2 = some c ∧ c ≤ 0

/-- The list is ascending for `compare_versions` and its last element is a maximum. -/
structure InVersionOrder (versions : List Bytes) : Prop where
  ascending : versions.Pairwise NotAfter
  maximum : ∀ last ∈ versions.getLast?, ∀ v ∈ versions, NotAfter v last

/-- A version with smaller numbers also has the smaller text. -/
def Monotone (versions : List Bytes) : Prop :=
  ∀ v ∈ versions, ∀ w ∈ versions, ∀ ns ms, numbers v = some ns → numbers w = some ms →
    ns < ms → v < w

/-- The loop with the comparison of lengths is the lexicographic order. -/
theorem compareNumbers_le_zero_iff (n : Nat) (ns ms : List Int) :
    compareNumbers (n + ns.length) (n + ms.length) (ns.zip ms) ≤ 0 ↔ ¬ ms < ns := by
  induction ns generalizing n ms with
  | nil =>
    cases ms with
    | nil => simp [compareNumbers]
    | cons q ms => simp [compareNumbers]
  | cons p ns ih =>
    cases ms with
    | nil =>
      have hlength : ¬ n + (ns.length + 1) < n := by omega
      simp [compareNumbers, hlength]
    | cons q ms =>
      rw [List.zip_cons_cons, compareNumbers, List.cons_lt_cons_iff]
      by_cases hlt : p < q
      · rw [if_pos hlt]
        have hne : ¬ (q < p ∨ q = p ∧ ms < ns) := by omega
        simp only [hne, not_false_iff, iff_true]
        decide
      · rw [if_neg hlt]
        by_cases hgt : q < p
        · rw [if_pos hgt]
          simp [hgt]
        · rw [if_neg hgt]
          have heq : q = p := by omega
          have hlength : ∀ l : List Int, n + (l.length + 1) = n + 1 + l.length := by omega
          rw [List.length_cons, List.length_cons, hlength, hlength, ih]
          simp [heq]

/-- Two versions with numbers are compared by them. -/
theorem notAfter_iff {v w : Bytes} {ns ms : List Int} (hv : numbers v = some ns)
    (hw : numbers w = some ms) : NotAfter v w ↔ ¬ ms < ns := by
  have hcompare := compareNumbers_le_zero_iff 0 ns ms
  rw [Nat.zero_add, Nat.zero_add] at hcompare
  rw [← hcompare, NotAfter, compareVersions, hv, hw]
  simp

/-- In an ascending list the last element is a maximum. -/
theorem inVersionOrder_iff_pairwise {versions : List Bytes}
    (h : ∀ v ∈ versions, ∃ ns, numbers v = some ns) :
    InVersionOrder versions ↔ versions.Pairwise NotAfter := by
  refine ⟨InVersionOrder.ascending, fun hascending ↦ ⟨hascending, fun last hlast v hv ↦ ?_⟩⟩
  have hsnoc := List.dropLast_append_getLast? last hlast
  rw [← hsnoc] at hascending hv
  rcases List.mem_append.mp hv with hfront | hself
  · exact (List.pairwise_append.mp hascending).2.2 v hfront last (List.mem_singleton_self last)
  · rw [List.mem_singleton.mp hself]
    obtain ⟨ns, hns⟩ := h last (List.mem_of_mem_getLast? hlast)
    exact (notAfter_iff hns hns).mpr (lt_irrefl ns)

/-- Versions that are sorted by their text are in version order if and only if the text is monotone
in the numbers. -/
theorem pairwise_notAfter_iff {versions : List Bytes}
    (h : ∀ v ∈ versions, ∃ ns, numbers v = some ns) :
    (versions.insertionSort (· ≤ ·)).Pairwise NotAfter ↔ Monotone versions := by
  have hrefl : ∀ v ∈ versions, NotAfter v v := by
    intro v hv
    obtain ⟨ns, hns⟩ := h v hv
    exact (notAfter_iff hns hns).mpr (lt_irrefl ns)
  rw [pairwise_insertionSort_iff hrefl, Monotone]
  constructor
  · intro hle v hv w hw ns ms hns hms hlt
    by_contra hnot
    exact (notAfter_iff hms hns).mp (hle w hw v hv (List.not_lt.mp hnot)) hlt
  · intro hmono v hv w hw hle
    obtain ⟨ns, hns⟩ := h v hv
    obtain ⟨ms, hms⟩ := h w hw
    rw [notAfter_iff hns hms]
    intro hlt
    exact List.not_lt.mpr hle (hmono w hw v hv ms ns hms hns hlt)

/-- The list is in version order if and only if it is empty because of a name that is missing, or the
text of the names that are shown is monotone in their numbers. -/
theorem inVersionOrder_iff
    (hnames : ∀ r ∈ releases, ∃ v ns, r.name = some v ∧ numbers v = some ns) :
    InVersionOrder (getAllVersions board prereleases (some releases)) ↔
      (∃ r ∈ releases, r.Shown prereleases ∧ ¬ r.Named) ∨
        Monotone (shownNames prereleases releases) := by
  by_cases hunnamed : ∃ r ∈ releases, r.Shown prereleases ∧ ¬ r.Named
  · rw [getAllVersions_of_unnamed hunnamed, or_iff_left_of_imp fun _ ↦ hunnamed,
      iff_true_right hunnamed]
    exact ⟨.nil, fun _ h ↦ by cases h⟩
  · have hnumbers : ∀ v ∈ shownNames prereleases releases, ∃ ns, numbers v = some ns := by
      intro v hv
      obtain ⟨r, hr, -, hname⟩ := mem_shownNames.mp hv
      obtain ⟨w, ns, hw, hns⟩ := hnames r hr
      rw [hname] at hw
      cases hw
      exact ⟨ns, hns⟩
    rw [or_iff_right hunnamed, ← pairwise_notAfter_iff hnumbers]
    push Not at hunnamed
    rw [getAllVersions_of_named hunnamed]
    apply inVersionOrder_iff_pairwise
    intro v hv
    exact hnumbers v ((List.mem_insertionSort _).mp hv)

/-- Two releases that are named by their dates. -/
theorem inVersionOrder_iff_dates :
    InVersionOrder (getAllVersions (str "raspberrypi") false
        (some [⟨some (str "20150922"), false, []⟩, ⟨some (str "20150817"), false, []⟩])) ↔
      (∃ r ∈ [(⟨some (str "20150922"), false, []⟩ : Release),
          ⟨some (str "20150817"), false, []⟩], r.Shown false ∧ ¬ r.Named) ∨
        Monotone (shownNames false
          [⟨some (str "20150922"), false, []⟩, ⟨some (str "20150817"), false, []⟩]) := by
  apply inVersionOrder_iff
  intro r hr
  rcases List.mem_pair.mp hr with rfl | rfl
  · exact ⟨str "20150922", [20150922], rfl, by decide +kernel⟩
  · exact ⟨str "20150817", [20150817], rfl, by decide +kernel⟩

/-- Version 10 is listed before version 9. -/
theorem wider_number_not_in_order :
    ¬ InVersionOrder (getAllVersions (str "raspberrypi") false
      (some [⟨some (str "9"), false, []⟩, ⟨some (str "10"), false, []⟩])) := by
  intro h
  have hlist : getAllVersions (str "raspberrypi") false
      (some [⟨some (str "9"), false, []⟩, ⟨some (str "10"), false, []⟩]) =
      [str "10", str "9"] := by
    decide +kernel
  rw [hlist] at h
  have hten : NotAfter (str "10") (str "9") := List.pairwise_pair.mp h.ascending
  have hnumbers : numbers (str "10") = some [10] ∧ numbers (str "9") = some [9] := by
    decide +kernel
  rw [notAfter_iff hnumbers.1 hnumbers.2] at hten
  exact hten (by decide)

end MotionPie.Package.Motioneye
