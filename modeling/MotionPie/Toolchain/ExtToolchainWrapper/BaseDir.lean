import MotionPie.Base.FileTree

/-!
# Where the wrapper finds its toolchain

`toolchain/toolchain-external/ext-toolchain-wrapper.c:104-136`: an `argv[0]` with a slash is
cut at its last slash and `dir/../..` is resolved; without one, three components of
`/proc/self/exe` are cut off in place. For a wrapper in `usr/bin` below the base directory both
give that directory.
-/

namespace MotionPie.Toolchain.ExtToolchainWrapper

open Base FileTree

universe u v

variable {δ : Type u} {φ : Type v}

/-- `PATH_MAX`. -/
def pathMax : ℕ := 4096

/-- `strrchr(s, '/')`: what stands before the last slash and behind it. -/
def strrchr (s : Bytes) : Option (Bytes × Bytes) :=
  if slash ∈ s then
    some ((s.rdropWhile fun b ↦ b != slash).dropLast, s.rtakeWhile fun b ↦ b != slash)
  else none

/-- `realpath(s, NULL)` of a process in the directory `cwd`. -/
def realpath (t : FileTree δ φ) (links : ℕ) (cwd : Place) (s : Bytes) : Option Bytes :=
  if s = [] then none
  else match t.walk true links (base s cwd) (components s) with
    | .node p => some (showPlace p)
    | _ => none

/-- `/proc/self/exe` of a program that was started by the path name `s`: the place of the file
behind all links. -/
def procSelfExe (t : FileTree δ φ) (links : ℕ) (cwd : Place) (s : Bytes) : Option Bytes :=
  realpath t links cwd s

/-- The bytes of a buffer up to the first nul. -/
def cString (buf : Bytes) : Bytes := buf.takeWhile fun b ↦ b != 0

/-- `ext-toolchain-wrapper.c:126-132`: from index `i` down to 1, slashes become nuls until
there are three. -/
def stripComponents (buf : Bytes) : (i count : ℕ) → Bytes
  | 0, _ => buf
  | i + 1, count =>
    if buf[i + 1]? = some slash then
      if count + 1 = 3 then buf.set (i + 1) 0 else stripComponents (buf.set (i + 1) 0) i (count + 1)
    else stripComponents buf i count

/-- `absbasedir` from `/proc/self/exe`, `ext-toolchain-wrapper.c:118-132`. -/
def fromExe (exe : Bytes) : Bytes :=
  let link := exe.take pathMax
  cString (stripComponents (link ++ [0]) link.length 0)

/-- `absbasedir`, `ext-toolchain-wrapper.c:104-136`; `exe` is the text of `/proc/self/exe`. -/
def absbasedir (t : FileTree δ φ) (links : ℕ) (cwd : Place) (exe argv0 : Bytes) : Option Bytes :=
  match strrchr argv0 with
  | some (dir, _) => realpath t links cwd (dir ++ str "/../..")
  | none => some (fromExe exe)

variable {t : FileTree δ φ} {links : ℕ} {cwd p : Place} {n : Bytes}

/-! ### The branch with a slash -/

/-- The text of a place is that of its directory, a slash and its name. -/
theorem showPlace_cons_of_ne (hp : p ≠ []) : showPlace (n :: p) = showPlace p ++ slash :: n := by
  rw [showPlace_cons, List.reverse_cons, List.flatMap_append, List.flatMap_singleton, showPlace,
    if_neg hp]

/-- The last slash of the text of a place stands before its name. -/
theorem strrchr_showPlace (hp : p ≠ []) (hn : slash ∉ n) :
    strrchr (showPlace (n :: p)) = some (showPlace p, n) := by
  have htext : showPlace (n :: p) = showPlace p ++ [slash] ++ n := by
    rw [showPlace_cons_of_ne hp, List.append_assoc, List.singleton_append]
  have hname : ∀ b ∈ n, (b != slash) = true := by
    intro b hb
    exact bne_iff_ne.mpr fun h ↦ hn (h ▸ hb)
  have hdrop : (showPlace p ++ [slash] ++ n).rdropWhile (fun b ↦ b != slash) =
      showPlace p ++ [slash] := by
    rw [List.rdropWhile, List.reverse_append, List.dropWhile_append_of_pos (by simpa using hname)]
    simp
  have htake : (showPlace p ++ [slash] ++ n).rtakeWhile (fun b ↦ b != slash) = n := by
    rw [List.rtakeWhile, List.reverse_append, List.takeWhile_append_of_pos (by simpa using hname)]
    simp
  rw [strrchr, htext, if_pos (by simp), hdrop, htake, List.dropLast_concat]

/-- The text of a place starts at the root. -/
theorem base_showPlace (cwd p : Place) (s : Bytes) : base (showPlace p ++ s) cwd = [] := by
  have habs : isAbsolute (showPlace p ++ s) = true := by
    unfold showPlace
    split
    · rfl
    · next hp =>
      obtain ⟨n, q, hq⟩ := List.exists_cons_of_ne_nil (List.reverse_ne_nil_iff.mpr hp)
      rw [hq]
      rfl
  rw [base, if_pos habs]

/-- The text of a directory resolves to what is two levels above. -/
theorem realpath_two_up (h : t.IsDir p) (hp : p ≠ []) :
    realpath t links cwd (showPlace p ++ str "/../..") = some (showPlace p.tail.tail) := by
  have hcomponents : components (showPlace p ++ str "/../..") =
      [] :: (p.reverse ++ [str "..", str ".."]) := by
    have hrest : components (str "../..") = [str "..", str ".."] := by decide
    have hslash : str "/../.." = slash :: str "../.." := rfl
    rw [hslash, components_append, hrest,
      components_showPlace hp fun n hn ↦ (h.isEntryName_of_mem hn).2.1, List.cons_append]
  have hleads : t.Leads [] ([] :: (p.reverse ++ [str "..", str ".."])) (0 + 0) p.tail.tail :=
    .stay (.inl rfl) ((leads_reverse h).append (.up (.up (.nil _))))
  rw [realpath, if_neg (by simp [str]), base_showPlace, hcomponents,
    hleads.walk_eq (Nat.zero_le links)]

/-! ### The branch without one -/

/-- Indices without a slash are passed over. -/
theorem stripComponents_skip {buf : Bytes} {i j count : ℕ} (hij : i ≤ j)
    (h : ∀ k, i < k → k ≤ j → buf[k]? ≠ some slash) :
    stripComponents buf j count = stripComponents buf i count := by
  induction j, hij using Nat.le_induction with
  | base => rfl
  | succ j hij ih =>
    rw [stripComponents, if_neg (h (j + 1) (by omega) le_rfl),
      ih fun k hik hkj ↦ h k hik (by omega)]

/-- The last component of the text before index `i` is cut off. -/
theorem stripComponents_component {s m : Bytes} (r : Bytes) (count : ℕ) (hs : s ≠ [])
    (hm : slash ∉ m) :
    stripComponents (s ++ slash :: (m ++ r)) (s.length + m.length) count =
      if count + 1 = 3 then s ++ 0 :: (m ++ r)
      else stripComponents (s ++ 0 :: (m ++ r)) (s.length - 1) (count + 1) := by
  have hskip : ∀ k, s.length < k → k ≤ s.length + m.length →
      (s ++ slash :: (m ++ r))[k]? ≠ some slash := by
    intro k hlow hhigh hk
    obtain ⟨j, rfl⟩ := Nat.exists_eq_add_of_lt hlow
    have hj : (s ++ slash :: (m ++ r))[s.length + j + 1]? = m[j]? := by
      rw [Nat.add_assoc, List.getElem?_append_right (by omega), Nat.add_sub_cancel_left,
        List.getElem?_cons_succ, List.getElem?_append_left (by omega)]
    rw [hj] at hk
    exact hm (List.mem_of_getElem? hk)
  obtain ⟨i, hi⟩ : ∃ i, s.length = i + 1 :=
    Nat.exists_eq_succ_of_ne_zero (List.length_pos_of_ne_nil hs).ne'
  rw [stripComponents_skip (Nat.le_add_right _ _) hskip, hi, stripComponents, ← hi]
  simp [hi]

/-- The text of a place has no nul in it. -/
theorem cString_showPlace (hclean : ∀ n ∈ p, (0 : UInt8) ∉ n) (s : Bytes) :
    cString (showPlace p ++ 0 :: s) = showPlace p := by
  have hmem : ∀ b ∈ showPlace p, (b != 0) = true := by
    intro b hb
    apply bne_iff_ne.mpr
    rintro rfl
    unfold showPlace at hb
    split at hb
    · exact absurd hb (by decide)
    · obtain ⟨n, hn, hb⟩ := List.mem_flatMap.mp hb
      rcases List.mem_cons.mp hb with hslash | hb
      · exact absurd hslash (by decide)
      · exact hclean n (List.mem_reverse.mp hn) hb
  rw [cString, List.takeWhile_append_of_pos hmem]
  simp

/-- The components of `/proc/self/exe` behind the base directory are cut off. -/
theorem fromExe_showPlace {a b c : Bytes} (hp : p ≠ []) (hclean : ∀ n ∈ p, (0 : UInt8) ∉ n)
    (ha : slash ∉ a) (hb : slash ∉ b) (hc : slash ∉ c)
    (hlen : (showPlace (a :: b :: c :: p)).length < pathMax) :
    fromExe (showPlace (a :: b :: c :: p)) = showPlace p := by
  have hne : showPlace p ≠ [] := by
    intro hnil
    have hbase := base_showPlace (a :: p) p []
    rw [hnil] at hbase
    cases hbase
  have hc' : showPlace (c :: p) = showPlace p ++ slash :: c := showPlace_cons_of_ne hp
  have hb' : showPlace (b :: c :: p) = showPlace (c :: p) ++ slash :: b :=
    showPlace_cons_of_ne (List.cons_ne_nil _ _)
  have ha' : showPlace (a :: b :: c :: p) = showPlace (b :: c :: p) ++ slash :: a :=
    showPlace_cons_of_ne (List.cons_ne_nil _ _)
  have htake : (showPlace (a :: b :: c :: p)).take pathMax = showPlace (a :: b :: c :: p) :=
    List.take_of_length_le hlen.le
  -- The three rounds cut `a`, `b` and `c` off; the first one starts at the final nul.
  have hfirst : stripComponents (showPlace (a :: b :: c :: p) ++ [0])
      (showPlace (a :: b :: c :: p)).length 0 =
      stripComponents (showPlace (b :: c :: p) ++ 0 :: (a ++ [0]))
        ((showPlace (b :: c :: p)).length - 1) 1 := by
    have hslash : slash ∉ a ++ [0] := by
      rw [List.mem_append, not_or]
      exact ⟨ha, by decide⟩
    have hsome : showPlace (b :: c :: p) ≠ [] := by simp [hb']
    have hround := stripComponents_component [] 0 hsome hslash
    rw [List.append_nil, if_neg (by decide), List.length_append, ← Nat.add_assoc] at hround
    rw [ha', List.append_assoc, List.cons_append, List.length_append]
    exact hround
  have hsecond : stripComponents (showPlace (b :: c :: p) ++ 0 :: (a ++ [0]))
      ((showPlace (b :: c :: p)).length - 1) 1 =
      stripComponents (showPlace (c :: p) ++ 0 :: (b ++ 0 :: (a ++ [0])))
        ((showPlace (c :: p)).length - 1) 2 := by
    have hsome : showPlace (c :: p) ≠ [] := by simp [hc']
    have hround := stripComponents_component (0 :: (a ++ [0])) 1 hsome hb
    rw [if_neg (by decide)] at hround
    rw [hb', List.append_assoc, List.cons_append, List.length_append, List.length_cons]
    exact hround
  have hthird : stripComponents (showPlace (c :: p) ++ 0 :: (b ++ 0 :: (a ++ [0])))
      ((showPlace (c :: p)).length - 1) 2 =
      showPlace p ++ 0 :: (c ++ 0 :: (b ++ 0 :: (a ++ [0]))) := by
    have hround := stripComponents_component (0 :: (b ++ 0 :: (a ++ [0]))) 2 hne hc
    rw [if_pos rfl] at hround
    rw [hc', List.append_assoc, List.cons_append, List.length_append, List.length_cons]
    exact hround
  rw [fromExe, htake]
  simp only [hfirst, hsecond, hthird]
  exact cString_showPlace hclean _

/-- What a name in a directory leads to is found by the text of its place. -/
theorem realpath_showPlace {q : Place} (h : t.IsDir p) (hp : p ≠ []) (hn : IsEntryName n)
    (hfound : t.walk true links p [n] = .node q) :
    realpath t links cwd (showPlace (n :: p)) = some (showPlace q) := by
  have hcomponents : components (showPlace (n :: p)) = ([] :: p.reverse) ++ [n] := by
    rw [showPlace_cons_of_ne hp, components_append,
      components_showPlace hp fun m hm ↦ (h.isEntryName_of_mem hm).2.1, components,
      List.splitOn_eq_singleton hn.2.1]
  have hleads : t.Leads [] ([] :: p.reverse) 0 p := .stay (.inl rfl) (leads_reverse h)
  have hwalk : t.walk true links [] (([] :: p.reverse) ++ [n]) = t.walk true (links - 0) p [n] :=
    hleads.walk_append (Nat.zero_le links) (.inr rfl)
  have hbase := base_showPlace cwd (n :: p) []
  rw [List.append_nil] at hbase
  rw [realpath, if_neg (by rw [showPlace_cons_of_ne hp]; simp), hbase, hcomponents, hwalk,
    Nat.sub_zero, hfound]

/-- Both ways of locating the toolchain agree: with the path in `argv[0]` and with the name only,
when the tool is a file of `usr/bin` or a link to another file there. -/
theorem absbasedir_agree {B : Place} (hB : B ≠ []) {tool target : Bytes} (htool : IsEntryName tool)
    (hdir : t.IsDir (str "bin" :: str "usr" :: B))
    (hfile : ∃ content, t.node (target :: str "bin" :: str "usr" :: B) = some (.file content))
    (hfound : t.walk true links (str "bin" :: str "usr" :: B) [tool] =
      .node (target :: str "bin" :: str "usr" :: B))
    (hlen : (showPlace (target :: str "bin" :: str "usr" :: B)).length < pathMax) :
    ∃ exe, procSelfExe t links cwd (showPlace (tool :: str "bin" :: str "usr" :: B)) = some exe ∧
      absbasedir t links cwd exe (showPlace (tool :: str "bin" :: str "usr" :: B)) =
        some (showPlace B) ∧
      absbasedir t links cwd exe tool = some (showPlace B) := by
  have htarget : IsEntryName target := by
    obtain ⟨content, hcontent⟩ := hfile
    apply t.name target (str "bin" :: str "usr" :: B)
    rw [hcontent]
    exact Option.some_ne_none _
  have hclean : ∀ n ∈ B, (0 : UInt8) ∉ n := fun n hn ↦
    (hdir.isEntryName_of_mem (List.mem_cons_of_mem _ (List.mem_cons_of_mem _ hn))).2.2.1
  refine ⟨_, realpath_showPlace hdir (List.cons_ne_nil _ _) htool hfound, ?_, ?_⟩
  · rw [absbasedir, strrchr_showPlace (List.cons_ne_nil _ _) htool.2.1]
    exact realpath_two_up hdir (List.cons_ne_nil _ _)
  · have hplain : strrchr tool = none := if_neg htool.2.1
    rw [absbasedir, hplain]
    exact congrArg some (fromExe_showPlace hB hclean htarget.2.1 (by decide) (by decide) hlen)

/-- A wrapper in `/h/usr/bin` and a link to it. -/
def wrapperTree : FileTree Unit Unit :=
  ofList () [([str "h"], .dir ()), ([str "usr", str "h"], .dir ()),
    ([str "bin", str "usr", str "h"], .dir ()),
    ([str "wrapper", str "bin", str "usr", str "h"], .file ()),
    ([str "gcc", str "bin", str "usr", str "h"], .link (str "wrapper"))] (by decide)

/-- The tool `gcc` is a link: both branches give `/h`. -/
theorem absbasedir_agree_link :
    ∃ exe, procSelfExe wrapperTree 1 [] (showPlace [str "gcc", str "bin", str "usr", str "h"]) =
        some exe ∧
      absbasedir wrapperTree 1 [] exe (showPlace [str "gcc", str "bin", str "usr", str "h"]) =
        some (showPlace [str "h"]) ∧
      absbasedir wrapperTree 1 [] exe (str "gcc") = some (showPlace [str "h"]) :=
  @absbasedir_agree Unit Unit wrapperTree 1 [] [str "h"] (by decide) (str "gcc") (str "wrapper")
    (by decide) (by decide +kernel) ⟨(), by decide +kernel⟩ (by decide +kernel) (by decide)

end MotionPie.Toolchain.ExtToolchainWrapper
