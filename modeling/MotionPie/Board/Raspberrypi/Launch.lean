import MotionPie.Board.Raspberrypi.StreameyeConf
import MotionPie.Shell.Source

/-!
# The credentials of streameye

`board/raspberrypi/overlay/usr/bin/streameye.sh` sources `streameye.conf` and passes the
credentials on in an unquoted expansion. They reach `streameye` as they are only if the shell
takes nothing in them for a quote, an expansion, a blank or a pattern.
-/

namespace MotionPie.Board.Raspberrypi

open Base Shell

/-- `streameye_opts`, `streameye.sh:40-49`. -/
def streameyeOpts (vars : Vars) (motioneyeConf : Option Bytes) : Bytes :=
  let opts := str "-p " ++ vars (str "PORT")
  let opts :=
    if vars (str "CREDENTIALS") ≠ [] ∧ vars (str "AUTH") = str "basic" then
      opts ++ str " -a basic -c " ++ vars (str "CREDENTIALS")
    else opts
  if motioneyeConf.any fun conf ↦ (lines conf).any (contains (str "log-level debug")) then
    opts ++ str " -d"
  else opts

/-- The arguments of `streameye $streameye_opts`, or `none` when sourcing `streameye.conf` does
anything but set variables. -/
def launch (g : Globbing) (names : Bytes → List Bytes) (vars : Vars)
    (streameyeConf : Bytes) (motioneyeConf : Option Bytes) : Option (List Bytes) :=
  (source vars streameyeConf).map fun vars ↦
    (splitWords (streameyeOpts vars motioneyeConf)).flatMap (expand g names)

/-- The values given to an option. -/
def optionValues (option : Bytes) : List Bytes → List Bytes
  | a :: b :: args =>
    if a = option then b :: optionValues option args else optionValues option (b :: args)
  | _ => []

/-- After `_set_streameye_settings` the credentials are the one value of `-c`, whatever variables
the script starts with, whatever files lie in its directory and whatever `motioneye.conf` says. -/
def Launched (g : Globbing) (main : MainConfig) (port : Int) (fs : StreameyeFiles) : Prop :=
  ∀ names vars motioneyeConf, ∃ args,
    launch g names vars
      ((setStreameyeSettings main ⟨some port, some .basic⟩ fs).streameyeConf.getD [])
      motioneyeConf = some args ∧
    optionValues (str "-c") args = [credentials main]

/-- The shell takes the credentials for one word that stands for itself. -/
structure Carried (g : Globbing) (main : MainConfig) : Prop where
  nul : 0 ∉ credentials main
  blank : ∀ b ∈ credentials main, isBlank b = false
  pattern : g.isPattern (credentials main) = false
  literal : Literal (credentials main)

/-! ### Sourcing the file -/

variable {g : Globbing} {main : MainConfig} {port : Int} {vars : Vars}

/-- The variables before the line of the credentials. -/
def withPort (vars : Vars) (port : Int) : Vars :=
  Function.update (Function.update vars (str "PORT") (showInt port)) (str "AUTH") (str "basic")

/-- The variables after the file has been sourced. -/
def withCredentials (vars : Vars) (port : Int) (v : Bytes) : Vars :=
  Function.update (withPort vars port) (str "CREDENTIALS") v

/-- The line of the port. -/
theorem assignLine_portLine :
    assignLine vars ((portLine port).filter (· ≠ 0)) =
      some (Function.update vars (str "PORT") (showInt port)) := by
  have hnul : 0 ∉ portLine port := fun hmem ↦ absurd (mem_portLine hmem) (by decide)
  have hline : portLine port = str "PORT" ++ 61 :: 34 :: (showInt port ++ [34]) := by
    simp [portLine, str]
  rw [filter_nul hnul, hline,
    assignLine_literal (by decide) (literal_of_isPlain fun _ ↦ isPlain_of_mem_showInt)]

/-- The line of the mode. -/
theorem assignLine_authLine :
    assignLine vars ((authLine .basic).filter (· ≠ 0)) =
      some (Function.update vars (str "AUTH") (str "basic")) := by
  have hvariable : isVariable (str "AUTH") = true := by decide
  have hbasic : ∀ b ∈ str "basic", isPlain b = true := by decide
  exact assignLine_literal hvariable (literal_of_isPlain hbasic)

/-- The variables that the file sets, if the credentials can be read. -/
theorem source_streameyeConf (vars : Vars) (port : Int) (huser : newline ∉ main.normalUsername)
    (hpassword : newline ∉ main.normalPassword) (fs : StreameyeFiles) :
    source vars ((setStreameyeSettings main ⟨some port, some .basic⟩ fs).streameyeConf.getD []) =
      match quoted (withPort vars port) 0 ((credentials main).filter (· ≠ 0) ++ [34]) with
      | some (v, []) => some (withCredentials vars port v)
      | _ => none := by
  have hlines : ∀ l ∈ [portLine port, authLine .basic, credentialsLine main], newline ∉ l := by
    simp only [List.forall_mem_cons, List.not_mem_nil, false_implies, implies_true, and_true]
    exact ⟨fun hmem ↦ absurd (mem_portLine hmem) (by decide), by decide,
      newline_notMem_credentialsLine huser hpassword⟩
  have hcredentials : (credentialsLine main).filter (· ≠ 0) =
      str "CREDENTIALS" ++ 61 :: 34 :: ((credentials main).filter (· ≠ 0) ++ [34]) := by
    rw [credentialsLine, List.filter_append, List.filter_append, List.append_assoc]
    rfl
  change source vars (unlines [portLine port, authLine .basic, credentialsLine main]) = _
  rw [source_unlines hlines]
  simp only [List.map_cons, List.map_nil, List.foldlM_cons, List.foldlM_nil, assignLine_portLine,
    assignLine_authLine, hcredentials, Option.bind_eq_bind, Option.bind_some]
  rw [assignLine_quoted (by decide)]
  exact bind_pure (m := Option) _

/-- A number is one word. -/
theorem splitWords_showInt (n : Int) : splitWords (showInt n) = [showInt n] :=
  splitWords_plain (showInt_ne_nil n) fun _ ↦ isPlain_of_mem_showInt

/-- What the script reads back. -/
theorem withCredentials_eq (vars : Vars) (port : Int) (v : Bytes) :
    withCredentials vars port v (str "CREDENTIALS") = v ∧
      withCredentials vars port v (str "AUTH") = str "basic" ∧
      withCredentials vars port v (str "PORT") = showInt port := by
  refine ⟨Function.update_self _ _ _, ?_, ?_⟩
  · rw [withCredentials, Function.update_of_ne (by decide), withPort, Function.update_self]
  · rw [withCredentials, Function.update_of_ne (by decide), withPort,
      Function.update_of_ne (by decide), Function.update_self]

/-- The options without credentials. -/
theorem splitWords_streameyeOpts_nil :
    splitWords (streameyeOpts (withCredentials vars port []) none) =
      [str "-p", showInt port] := by
  obtain ⟨hcredentials, -, hport⟩ := withCredentials_eq vars port []
  have hopts : str "-p " ++ showInt port = str "-p" ++ 32 :: showInt port := rfl
  simp only [streameyeOpts, hcredentials, hport]
  exact (congrArg splitWords hopts).trans <| by
    rw [splitWords_append, splitWords_showInt, show splitWords (str "-p") = [str "-p"] by decide]
    rfl

/-- The options. -/
theorem splitWords_streameyeOpts (vars : Vars) (port : Int) {v : Bytes} (hv : v ≠ [])
    (motioneyeConf : Option Bytes) :
    ∃ t, (t = [] ∨ t = [str "-d"]) ∧
      splitWords (streameyeOpts (withCredentials vars port v) motioneyeConf) =
        [str "-p", showInt port, str "-a", str "basic", str "-c"] ++ splitWords v ++ t := by
  obtain ⟨hcredentials, hauth, hport⟩ := withCredentials_eq vars port v
  have hopts : str "-p " ++ showInt port ++ str " -a basic -c " ++ v =
      str "-p" ++ 32 :: (showInt port ++ 32 :: (str "-a basic -c" ++ 32 :: v)) := by simp [str]
  have hwords : splitWords (str "-p " ++ showInt port ++ str " -a basic -c " ++ v) =
      [str "-p", showInt port, str "-a", str "basic", str "-c"] ++ splitWords v := by
    rw [hopts, splitWords_append, splitWords_append, splitWords_append,
      splitWords_showInt,
      show splitWords (str "-p") = [str "-p"] by decide,
      show splitWords (str "-a basic -c") = [str "-a", str "basic", str "-c"] by decide]
    rfl
  have hgiven : v ≠ [] ∧ True := ⟨hv, trivial⟩
  simp only [streameyeOpts, hcredentials, hauth, hport, if_pos hgiven]
  split
  · refine ⟨[str "-d"], .inr rfl, ?_⟩
    rw [show str " -d" = 32 :: str "-d" from rfl, splitWords_append, hwords,
      show splitWords (str "-d") = [str "-d"] by decide]
  · exact ⟨[], .inl rfl, by rw [hwords, List.append_nil]⟩

/-! ### The arguments -/

/-- An argument that is not the option. -/
theorem optionValues_of_ne {option a : Bytes} (h : a ≠ option) (args : List Bytes) :
    optionValues option (a :: args) = optionValues option args := by
  cases args with
  | nil => rfl
  | cons b args => rw [optionValues, if_neg h]

/-- The option and its value. -/
theorem optionValues_cons (option b : Bytes) (args : List Bytes) :
    optionValues option (option :: b :: args) = b :: optionValues option args := by
  rw [optionValues, if_pos rfl]

/-- A port is no option. -/
theorem showInt_ne_option (n : Int) : showInt n ≠ str "-c" := by
  intro hoption
  have hmem : 99 ∈ showInt n := hoption ▸ by decide
  exact notMem_showInt (by decide) n hmem

/-- The values of `-c` come from the words of the credentials. -/
theorem optionValues_expand {ws t : List Bytes} (names : Bytes → List Bytes)
    (ht : t = [] ∨ t = [str "-d"]) :
    optionValues (str "-c")
      (([str "-p", showInt port, str "-a", str "basic", str "-c"] ++ ws ++ t).flatMap
        (expand g names)) =
      match ws.flatMap (expand g names) ++ t with
      | [] => []
      | w :: args => w :: optionValues (str "-c") args := by
  have hend : t.flatMap (expand g names) = t := by
    rcases ht with rfl | rfl
    · rfl
    · rw [List.flatMap_singleton, expand_plain (by decide)]
  have hargs : ([str "-p", showInt port, str "-a", str "basic", str "-c"] ++ ws ++ t).flatMap
      (expand g names) =
        str "-p" :: showInt port :: str "-a" :: str "basic" :: str "-c" ::
          (ws.flatMap (expand g names) ++ t) := by
    simp only [List.flatMap_append, List.flatMap_cons, List.flatMap_nil, hend,
      expand_plain (g := g) (fun _ hb ↦ isPlain_of_mem_showInt hb) names,
      expand_plain (g := g) (w := str "-p") (by decide) names,
      expand_plain (g := g) (w := str "-a") (by decide) names,
      expand_plain (g := g) (w := str "basic") (by decide) names,
      expand_plain (g := g) (w := str "-c") (by decide) names]
    simp
  rw [hargs, optionValues_of_ne (by decide), optionValues_of_ne (showInt_ne_option port),
    optionValues_of_ne (by decide), optionValues_of_ne (by decide)]
  cases ws.flatMap (expand g names) ++ t with
  | nil => rfl
  | cons w args => exact optionValues_cons _ _ _

/-- Port and mode bring no active bytes in. -/
theorem clean_withPort (port : Int) : Clean (withPort (fun _ ↦ []) port) := by
  intro n b hb
  by_cases hauth : n = str "AUTH"
  · rw [withPort, hauth, Function.update_self] at hb
    have hall : ∀ b ∈ str "basic", isActive b = false ∧ b ≠ 0 := by decide
    exact hall b hb
  · rw [withPort, Function.update_of_ne hauth] at hb
    by_cases hport : n = str "PORT"
    · rw [hport, Function.update_self] at hb
      exact inactive_of_isPlain (isPlain_of_mem_showInt hb)
    · rw [Function.update_of_ne hport] at hb
      cases hb

/-- Credentials that are the first word of what is read from the file are carried. -/
theorem carried_of_value {v : Bytes} (hvalue : Value ((credentials main).filter (· ≠ 0)) v)
    (hword : credentials main ∈ splitWords v) (hpattern : g.isPattern (credentials main) = false) :
    Carried g main := by
  obtain ⟨hsub, hblank⟩ := of_mem_splitWords hword
  have hfilter : ((credentials main).filter (· ≠ 0)).Sublist (credentials main) :=
    List.filter_sublist
  have hcount := hsub.countP_le (p := isActive)
  have hless := hfilter.countP_le (p := isActive)
  obtain ⟨hliteral, hv⟩ := hvalue.literal (hless.trans hcount)
  rw [hv] at hsub
  have hself : (credentials main).filter (· ≠ 0) = credentials main := hfilter.antisymm hsub
  refine ⟨?_, hblank, hpattern, hself ▸ hliteral⟩
  intro hnul
  rw [← hself] at hnul
  simp at hnul

/-- The credentials reach `streameye` if and only if the shell takes them for one word that stands
for itself. -/
theorem launched_iff (huser : newline ∉ main.normalUsername)
    (hpassword : newline ∉ main.normalPassword) (fs : StreameyeFiles) :
    Launched g main port fs ↔ Carried g main := by
  have hne : credentials main ≠ [] := by simp [credentials, str]
  constructor
  · intro h
    -- No variable is set at the start, and every pattern matches a file without a name.
    obtain ⟨args, hlaunch, hvalues⟩ := h (fun _ ↦ [[]]) (fun _ ↦ []) none
    rw [launch, source_streameyeConf _ _ huser hpassword] at hlaunch
    obtain ⟨vars, hsource, rfl⟩ := Option.map_eq_some_iff.mp hlaunch
    split at hsource
    · next v hquoted =>
      cases hsource
      obtain ⟨s, hs, hvalue⟩ := value_of_quoted (clean_withPort port) hquoted
      obtain rfl : (credentials main).filter (· ≠ 0) = s := List.append_cancel_right hs
      have hv : v ≠ [] := by
        rintro rfl
        rw [splitWords_streameyeOpts_nil, List.flatMap_cons, List.flatMap_singleton,
          expand_plain (by decide), expand_plain (fun _ hb ↦ isPlain_of_mem_showInt hb)] at hvalues
        rw [List.singleton_append, optionValues_of_ne (by decide)] at hvalues
        cases hvalues
      obtain ⟨t, ht, hwords⟩ :=
        splitWords_streameyeOpts (fun _ ↦ []) port hv none
      rw [hwords, optionValues_expand _ ht] at hvalues
      have hcolon : (58 : UInt8) ∈ credentials main := by simp [credentials, str]
      cases hsplit : splitWords v with
      | nil =>
        rw [hsplit] at hvalues
        rcases ht with rfl | rfl
        · cases hvalues
        · obtain ⟨hd, -⟩ := List.cons.inj hvalues
          rw [← hd] at hcolon
          exact absurd hcolon (by decide)
      | cons w ws =>
        have hpattern : g.isPattern w = false := by
          by_contra hpattern
          rw [hsplit, List.flatMap_cons, expand, if_pos (by simpa using hpattern)] at hvalues
          exact hne (List.cons.inj hvalues).1.symm
        rw [hsplit, List.flatMap_cons, expand, if_neg (by simp [hpattern])] at hvalues
        obtain rfl : w = credentials main := (List.cons.inj hvalues).1
        exact carried_of_value hvalue (by simp [hsplit]) hpattern
    · cases hsource
  · intro h names vars motioneyeConf
    obtain ⟨t, ht, hwords⟩ := splitWords_streameyeOpts vars port hne motioneyeConf
    have hfilter := filter_nul h.nul
    have hexpand : (splitWords (credentials main)).flatMap (expand g names) = [credentials main] := by
      rw [splitWords_word hne h.blank, List.flatMap_singleton, expand, h.pattern]
      rfl
    have hlaunch := congrArg (Option.map fun vars ↦
      (splitWords (streameyeOpts vars motioneyeConf)).flatMap (expand g names))
      (source_streameyeConf vars port huser hpassword fs)
    rw [hfilter, quoted_literal h.literal, Option.map_some, hwords] at hlaunch
    refine ⟨_, hlaunch, ?_⟩
    rw [optionValues_expand names ht, hexpand]
    rcases ht with rfl | rfl <;> rfl

/-- Plain credentials. -/
theorem launched_iff_plain :
    Launched anyPattern ⟨str "user", str "secret"⟩ 8081 ⟨none, [], none⟩ ↔
      Carried anyPattern ⟨str "user", str "secret"⟩ :=
  launched_iff (by decide) (by decide) ⟨none, [], none⟩

/-- A blank in the password ends it, and a command in it is run. -/
theorem not_launched :
    launch anyPattern (fun _ ↦ []) (fun _ ↦ [])
        ((setStreameyeSettings ⟨str "user", str "my secret"⟩ ⟨some 8081, some .basic⟩
          ⟨none, [], none⟩).streameyeConf.getD []) none =
      some [str "-p", str "8081", str "-a", str "basic", str "-c", str "user:my",
        str "secret:motionPie"] ∧
      launch anyPattern (fun _ ↦ []) (fun _ ↦ [])
        ((setStreameyeSettings ⟨str "user", str "$(reboot)"⟩ ⟨some 8081, some .basic⟩
          ⟨none, [], none⟩).streameyeConf.getD []) none = none ∧
      ¬ Launched anyPattern ⟨str "user", str "my secret"⟩ 8081 ⟨none, [], none⟩ := by
  have hblank : launch anyPattern (fun _ ↦ []) (fun _ ↦ [])
      ((setStreameyeSettings ⟨str "user", str "my secret"⟩ ⟨some 8081, some .basic⟩
        ⟨none, [], none⟩).streameyeConf.getD []) none =
      some [str "-p", str "8081", str "-a", str "basic", str "-c", str "user:my",
        str "secret:motionPie"] := by decide
  refine ⟨hblank, by decide, ?_⟩
  intro h
  obtain ⟨args, hargs, hvalues⟩ := h (fun _ ↦ []) (fun _ ↦ []) none
  rw [hblank] at hargs
  cases hargs
  exact absurd hvalues (by decide)

end MotionPie.Board.Raspberrypi
