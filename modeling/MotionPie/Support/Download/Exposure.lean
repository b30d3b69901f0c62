import MotionPie.Support.Download.Wrapper

/-!
# What the output of dl-wrapper can be

Only `mv` gives the output a content, and the file that it moves has been copied from a
download that check-hash accepted in the same process. The invariant says what each process
owns and what it has found out about it; no other process touches that.
-/

namespace MotionPie.Support.Download

open Base

/-- The temporary directory that a process has made and uses. -/
def Pc.tmpd : Pc → Option Nat
  | .cdTmpd d | .backend d | .cdBack d | .startTmpf d | .checkTmpf d _ | .rmTmpd d
  | .mktempOutput d | .chmod d _ | .openTmpf d _ | .cat d _ _ | .rmBoth d _
  | .rmTmpdDone d _ => some d
  | _ => none

/-- The temporary output that a process has made and uses. -/
def Pc.tmpOutput : Pc → Option Nat
  | .chmod _ o | .openTmpf _ o | .cat _ o _ | .rmBoth _ o | .rmTmpdDone _ o | .mv o
  | .rmTmpOutput o => some o
  | _ => none

/-- A backend of the process has completed the content, then check-hash has accepted it. -/
def Delivered (h : Hashes) (log : List Event) (p : Nat) (x : Content) : Prop :=
  List.Sublist [Event.downloaded p x, Event.accepted p x] log ∧ checkHash h x = 0

/-- What a process knows about its temporaries. -/
def Holds (h : Hashes) (p : Nat) (fs : Files) (log : List Event) : Pc → Prop
  | .cdBack d | .startTmpf d => ∀ x, fs.tmpd d = some (some x) → Event.downloaded p x ∈ log
  | .checkTmpf d c => ∀ x, fs.tmpd d = some (some x) →
      Event.downloaded p x ∈ log ∧ c.Passed h (some x)
  | .mktempOutput d => ∀ x, fs.tmpd d = some (some x) → Delivered h log p x
  | .chmod d o | .openTmpf d o => fs.tmpOutput o = some [] ∧
      ∀ x, fs.tmpd d = some (some x) → Delivered h log p x
  | .cat _ o left => ∃ x, fs.tmpOutput o = some x ∧ Delivered h log p (x ++ left)
  | .rmTmpdDone _ o | .mv o => ∃ x, fs.tmpOutput o = some x ∧ Delivered h log p x
  | _ => True

/-! ### Ownership -/

/-- A step changes no file but those that the process owns or makes. -/
structure Local {β : Type} (own own' : Option Nat) (m m' : Nat → Option β) : Prop where
  frame : ∀ k, m k ≠ none → own ≠ some k → m' k = m k
  owned : ∀ k, own' = some k → m' k ≠ none ∧ (own = some k ∨ m k = none)

section Local

variable {β : Type} {own : Option Nat} {m : Nat → Option β}

private theorem Local.same (h : ∀ k, own = some k → m k ≠ none) : Local own own m m :=
  ⟨fun _ _ _ ↦ rfl, fun k hk ↦ ⟨h k hk, .inl hk⟩⟩

private theorem Local.release : Local own none m m :=
  ⟨fun _ _ _ ↦ rfl, fun _ hk ↦ by cases hk⟩

private theorem Local.make {k : Nat} (hk : m k = none) (v : β) :
    Local none (some k) m (Function.update m k (some v)) := by
  refine ⟨fun j hj _ ↦ Function.update_of_ne ?_ _ _, fun j hj ↦ ?_⟩
  · rintro rfl
    exact hj hk
  · obtain rfl := Option.some.inj hj
    exact ⟨by simp, .inr hk⟩

private theorem Local.write (k : Nat) (v : β) :
    Local (some k) (some k) m (Function.update m k (some v)) := by
  refine ⟨fun j _ hj ↦ Function.update_of_ne ?_ _ _, fun j hj ↦ ?_⟩
  · rintro rfl
    exact hj rfl
  · obtain rfl := Option.some.inj hj
    exact ⟨by simp, .inl rfl⟩

private theorem Local.remove (k : Nat) : Local (some k) none m (Function.update m k none) := by
  refine ⟨fun j _ hj ↦ Function.update_of_ne ?_ _ _, fun j hj ↦ by cases hj⟩
  rintro rfl
  exact hj rfl

end Local

/-! ### One command -/

/-- What a command of process `p` does. -/
structure Moved (h : Hashes) (p : Nat) (log ev : List Event) (pc : Pc) (e : Ending) (pc' : Pc)
    (fs fs' : Files) : Prop where
  tmpd : Local pc.tmpd pc'.tmpd fs.tmpd fs'.tmpd
  tmpOutput : Local pc.tmpOutput pc'.tmpOutput fs.tmpOutput fs'.tmpOutput
  holds : Holds h p fs' (log ++ ev) pc'
  output : fs'.output = fs.output ∨ (pc = .rmOutput ∧ e = .ok ∧ fs'.output = none) ∨
    ∃ x, fs'.output = some x ∧ Delivered h (log ++ ev) p x

section Command

variable {h : Hashes} {p : Nat} {log ev : List Event} {pc pc' : Pc} {fs fs' : Files} {e : Ending}

/-- What was delivered stays delivered. -/
theorem Delivered.append {x : Content} (hd : Delivered h log p x) :
    Delivered h (log ++ ev) p x :=
  ⟨hd.1.trans (List.sublist_append_left _ _), hd.2⟩

private theorem Moved.stop (hd : pc'.tmpd = none) (ho : pc'.tmpOutput = none)
    (hh : Holds h p fs (log ++ []) pc') : Moved h p log [] pc e pc' fs fs :=
  ⟨hd ▸ .release, ho ▸ .release, hh, .inl rfl⟩

private theorem Moved.check {prog : Progress} :
    Moved h p log [] pc e (ofProgress .checkOutput afterCheckOutput prog) fs fs := by
  cases prog with
  | running c => exact .stop rfl rfl trivial
  | exited code =>
    match code with
    | 0 | 1 | 2 | _ + 3 => exact .stop rfl rfl trivial

private theorem Moved.verify {d : Nat} {prog : Progress} (hd : pc.tmpd = some d)
    (hex : ∀ k, some d = some k → fs.tmpd k ≠ none)
    (hdown : ∀ x, fs.tmpd d = some (some x) → Event.downloaded p x ∈ log)
    (hrun : ∀ c x, prog = .running c → fs.tmpd d = some (some x) → c.Passed h (some x))
    (hexit : ∀ x, prog = .exited 0 → fs.tmpd d = some (some x) → checkHash h x = 0) :
    Moved h p log (acceptedBy p (ofProgress (.checkTmpf d) (afterCheckTmpf d) prog) (fs.tmpd d))
      pc e (ofProgress (.checkTmpf d) (afterCheckTmpf d) prog) fs fs := by
  have hsame : Local pc.tmpd (some d) fs.tmpd fs.tmpd := by
    rw [hd]
    exact .same hex
  cases prog with
  | running c =>
    refine ⟨hsame, .release, fun x hx ↦ ?_, .inl rfl⟩
    exact ⟨List.mem_append_left _ (hdown x hx), hrun c x rfl hx⟩
  | exited code =>
    cases code with
    | zero =>
      refine ⟨hsame, .release, fun x hx ↦ ⟨?_, hexit x rfl hx⟩, .inl rfl⟩
      have hev : acceptedBy p (.mktempOutput d) (fs.tmpd d) = [.accepted p x] := by
        simp [acceptedBy, eventOf, hx]
      change List.Sublist [Event.downloaded p x, Event.accepted p x]
        (log ++ acceptedBy p (.mktempOutput d) (fs.tmpd d))
      rw [hev]
      exact (List.singleton_sublist.mpr (hdown x hx)).append
        (List.Sublist.refl [Event.accepted p x])
    | succ code => exact ⟨hsame, .release, trivial, .inl rfl⟩

/-- A command keeps what its process knows, and gives the output nothing but what has been
delivered. -/
theorem command_moved (hd : ∀ d, pc.tmpd = some d → fs.tmpd d ≠ none)
    (ho : ∀ o, pc.tmpOutput = some o → fs.tmpOutput o ≠ none) (hh : Holds h p fs log pc)
    (hc : command h p fs pc e = some (pc', fs', ev)) : Moved h p log ev pc e pc' fs fs' := by
  cases pc <;> cases e <;> try (simp only [command, reduceCtorEq] at hc; done)
  all_goals try
    (simp only [command, Option.some.injEq, Prod.mk.injEq] at hc; obtain ⟨rfl, rfl, rfl⟩ := hc)
  -- the process ends, and leaves its files as they are
  all_goals try exact .stop rfl rfl trivial
  case testOutput.ok => split <;> exact .stop rfl rfl trivial
  case startOutput.ok => exact .check
  case checkOutput.ok => exact .check
  case checkOutput.sum =>
    simp only [command, Option.ite_none_right_eq_some, Option.some.injEq, Prod.mk.injEq] at hc
    obtain ⟨-, rfl, rfl, rfl⟩ := hc
    exact .stop rfl rfl trivial
  case rmOutput.ok => exact ⟨.release, .release, trivial, .inr (.inl ⟨rfl, rfl, rfl⟩)⟩
  case mktempDir.name =>
    simp only [command, Option.ite_none_right_eq_some, Option.some.injEq, Prod.mk.injEq] at hc
    obtain ⟨hfree, rfl, rfl, rfl⟩ := hc
    exact ⟨.make (Option.isNone_iff_eq_none.mp hfree) _, .release, trivial, .inl rfl⟩
  case cdTmpd.ok => exact ⟨.same hd, .release, trivial, .inl rfl⟩
  case backend.ok =>
    refine ⟨.same hd, .release, fun x hx ↦ ?_, .inl rfl⟩
    simp [eventOf, hx]
  case backend.fail => exact ⟨.same hd, .release, trivial, .inl rfl⟩
  case backend.write => exact ⟨.write _ _, .release, trivial, .inl rfl⟩
  case cdBack.ok =>
    exact ⟨.same hd, .release, fun x hx ↦ List.mem_append_left _ (hh x hx), .inl rfl⟩
  case startTmpf.ok d =>
    refine .verify rfl hd hh (fun c x hs _ ↦ startCheck_running hs) fun x hs _ ↦ ?_
    rw [checkHash_eq_zero, (startCheck_exited hs).1]
    simp
  case startTmpf.abort => exact ⟨.same hd, .release, trivial, .inl rfl⟩
  case checkTmpf.ok d c =>
    refine .verify rfl hd (fun x hx ↦ (hh x hx).1) (fun c' x hs hx ↦ ?_) fun x hs hx ↦ ?_
    · rw [hx] at hs
      exact (hh x hx).2.step hs
    · rw [hx] at hs
      obtain ⟨lines, hl, hpass⟩ := (hh x hx).2.exit hs
      rw [checkHash_eq_zero, hl]
      rintro lines' ⟨⟩
      exact hpass
  case checkTmpf.sum =>
    simp only [command, Option.ite_none_right_eq_some, Option.some.injEq, Prod.mk.injEq] at hc
    obtain ⟨-, rfl, rfl, rfl⟩ := hc
    exact ⟨.same hd, .release, trivial, .inl rfl⟩
  case checkTmpf.abort => exact ⟨.same hd, .release, trivial, .inl rfl⟩
  case rmTmpd.ok => exact ⟨.remove _, .release, trivial, .inl rfl⟩
  case mktempOutput.name o =>
    simp only [command, Option.ite_none_right_eq_some, Option.some.injEq, Prod.mk.injEq] at hc
    obtain ⟨hfree, rfl, rfl, rfl⟩ := hc
    refine ⟨.same hd, .make (Option.isNone_iff_eq_none.mp hfree) _, ⟨?_, fun x hx ↦ ?_⟩,
      .inl rfl⟩
    · simp [Files.setTmpOutput]
    · exact (hh x hx).append
  case chmod.ok =>
    exact ⟨.same hd, .same ho, ⟨hh.1, fun x hx ↦ (hh.2 x hx).append⟩, .inl rfl⟩
  case openTmpf.ok =>
    simp only [command] at hc
    split at hc
    · next x hx =>
      simp only [Option.some.injEq, Prod.mk.injEq] at hc
      obtain ⟨rfl, rfl, rfl⟩ := hc
      exact ⟨.same hd, .same ho, ⟨[], hh.1, (hh.2 x hx).append⟩, .inl rfl⟩
    · simp only [Option.some.injEq, Prod.mk.injEq] at hc
      obtain ⟨rfl, rfl, rfl⟩ := hc
      exact ⟨.same hd, .same ho, trivial, .inl rfl⟩
  case openTmpf.fail => exact ⟨.same hd, .same ho, trivial, .inl rfl⟩
  case cat.append d o left n =>
    obtain ⟨x, hx, hdel⟩ := hh
    rw [hx, Option.map_some]
    refine ⟨.same hd, .write _ _, ⟨x ++ left.take n, ?_, ?_⟩, .inl rfl⟩
    · simp [Files.setTmpOutput]
    · rw [List.append_assoc, List.take_append_drop]
      exact hdel.append
  case cat.ok =>
    simp only [command, Option.ite_none_right_eq_some, Option.some.injEq, Prod.mk.injEq] at hc
    obtain ⟨rfl, rfl, rfl, rfl⟩ := hc
    obtain ⟨x, hx, hdel⟩ := hh
    rw [List.append_nil] at hdel
    exact ⟨.same hd, .same ho, ⟨x, hx, hdel.append⟩, .inl rfl⟩
  case cat.fail => exact ⟨.same hd, .same ho, trivial, .inl rfl⟩
  case rmBoth.ok => exact ⟨.remove _, .same ho, trivial, .inl rfl⟩
  case rmBoth.fail => exact ⟨.release, .same ho, trivial, .inl rfl⟩
  case rmTmpdDone.ok =>
    obtain ⟨x, hx, hdel⟩ := hh
    exact ⟨.remove _, .same ho, ⟨x, hx, hdel.append⟩, .inl rfl⟩
  case mv.ok =>
    obtain ⟨x, hx, hdel⟩ := hh
    simp only [command, hx, Option.some.injEq, Prod.mk.injEq] at hc
    obtain ⟨rfl, rfl, rfl⟩ := hc
    exact ⟨.release, .remove _, trivial, .inr (.inr ⟨x, rfl, hdel.append⟩)⟩
  case mv.fail => exact ⟨.release, .same ho, trivial, .inl rfl⟩
  case rmTmpOutput.ok => exact ⟨.release, .remove _, trivial, .inl rfl⟩

end Command

/-! ### All processes -/

/-- No two processes own a temporary, every process owns what it uses, and what is known of
it holds; the output is that of the start or has been delivered. -/
structure Inv (h : Hashes) (output : Option Content) (s : State) : Prop where
  tmpd : ∀ p d, (s.pc p).tmpd = some d → s.files.tmpd d ≠ none
  tmpdOwner : ∀ p q d, (s.pc p).tmpd = some d → (s.pc q).tmpd = some d → p = q
  tmpOutput : ∀ p o, (s.pc p).tmpOutput = some o → s.files.tmpOutput o ≠ none
  tmpOutputOwner : ∀ p q o, (s.pc p).tmpOutput = some o → (s.pc q).tmpOutput = some o → p = q
  holds : ∀ p, Holds h p s.files s.log (s.pc p)
  output : ∀ x, s.files.output = some x → output = some x ∨ ∃ p, Delivered h s.log p x

/-- Ownership after a step of process `p`. -/
private theorem owned_step {β : Type} {own : Pc → Option Nat} {pc : Nat → Pc} {p : Nat} {pc' : Pc}
    {m m' : Nat → Option β} (hex : ∀ q k, own (pc q) = some k → m k ≠ none)
    (hown : ∀ q r k, own (pc q) = some k → own (pc r) = some k → q = r)
    (hl : Local (own (pc p)) (own pc') m m') :
    (∀ q k, own (Function.update pc p pc' q) = some k → m' k ≠ none) ∧
      (∀ q r k, own (Function.update pc p pc' q) = some k →
        own (Function.update pc p pc' r) = some k → q = r) ∧
      ∀ q k, q ≠ p → own (pc q) = some k → m' k = m k := by
  have hkeep : ∀ q k, q ≠ p → own (pc q) = some k → m' k = m k := fun q k hq hk ↦
    hl.frame k (hex q k hk) fun hp ↦ hq (hown q p k hk hp)
  have hother : ∀ q k, q ≠ p → own (pc q) = some k → own pc' ≠ some k := by
    intro q k hq hk hp
    rcases (hl.owned k hp).2 with hold | hfree
    · exact hq (hown q p k hk hold)
    · exact hex q k hk hfree
  refine ⟨fun q k hk ↦ ?_, fun q r k hq hr ↦ ?_, hkeep⟩
  · by_cases hq : q = p
    · subst hq
      rw [Function.update_self] at hk
      exact (hl.owned k hk).1
    · rw [Function.update_of_ne hq] at hk
      rw [hkeep q k hq hk]
      exact hex q k hk
  · by_cases hqp : q = p <;> by_cases hrp : r = p
    · rw [hqp, hrp]
    · subst hqp
      rw [Function.update_self] at hq
      rw [Function.update_of_ne hrp] at hr
      exact absurd hq (hother r k hrp hr)
    · subst hrp
      rw [Function.update_self] at hr
      rw [Function.update_of_ne hqp] at hq
      exact absurd hr (hother q k hqp hq)
    · rw [Function.update_of_ne hqp] at hq
      rw [Function.update_of_ne hrp] at hr
      exact hown q r k hq hr

/-- What a process knows stays true while others leave its temporaries alone. -/
private theorem Holds.frame {h : Hashes} {p : Nat} {fs fs' : Files} {log ev : List Event} {pc : Pc}
    (hh : Holds h p fs log pc) (hd : ∀ d, pc.tmpd = some d → fs'.tmpd d = fs.tmpd d)
    (ho : ∀ o, pc.tmpOutput = some o → fs'.tmpOutput o = fs.tmpOutput o) :
    Holds h p fs' (log ++ ev) pc := by
  cases pc with
  | cdBack d | startTmpf d =>
    intro x hx
    rw [hd d rfl] at hx
    exact List.mem_append_left _ (hh x hx)
  | checkTmpf d c =>
    intro x hx
    rw [hd d rfl] at hx
    exact ⟨List.mem_append_left _ (hh x hx).1, (hh x hx).2⟩
  | mktempOutput d =>
    intro x hx
    rw [hd d rfl] at hx
    exact (hh x hx).append
  | chmod d o | openTmpf d o =>
    refine ⟨(ho o rfl).trans hh.1, fun x hx ↦ ?_⟩
    rw [hd d rfl] at hx
    exact (hh.2 x hx).append
  | cat d o left =>
    obtain ⟨x, hx, hdel⟩ := hh
    exact ⟨x, (ho o rfl).trans hx, hdel.append⟩
  | rmTmpdDone d o | mv o =>
    obtain ⟨x, hx, hdel⟩ := hh
    exact ⟨x, (ho o rfl).trans hx, hdel.append⟩
  | _ => trivial

/-- A step is a command of its process. -/
theorem step_eq_some {h : Hashes} {s s' : State} {a : Nat × Ending} (hs : step h s a = some s') :
    ∃ pc' fs' ev, command h a.1 s.files (s.pc a.1) a.2 = some (pc', fs', ev) ∧
      s' = ⟨fs', Function.update s.pc a.1 pc', s.log ++ ev⟩ := by
  obtain ⟨⟨pc', fs', ev⟩, hc, rfl⟩ := Option.map_eq_some_iff.mp hs
  exact ⟨pc', fs', ev, hc, rfl⟩

/-- Every step keeps the invariant. -/
theorem Inv.step {h : Hashes} {output : Option Content} {s s' : State} {a : Nat × Ending}
    (hi : Inv h output s) (hs : step h s a = some s') : Inv h output s' := by
  obtain ⟨pc', fs', ev, hc, rfl⟩ := step_eq_some hs
  have hm := command_moved (hi.tmpd a.1) (hi.tmpOutput a.1) (hi.holds a.1) hc
  obtain ⟨hd, hdo, hdk⟩ := owned_step hi.tmpd hi.tmpdOwner hm.tmpd
  obtain ⟨ho, hoo, hok⟩ := owned_step hi.tmpOutput hi.tmpOutputOwner hm.tmpOutput
  refine ⟨hd, hdo, ho, hoo, fun q ↦ ?_, fun x hx ↦ ?_⟩
  · change Holds h q fs' (s.log ++ ev) (Function.update s.pc a.1 pc' q)
    by_cases hq : q = a.1
    · subst hq
      rw [Function.update_self]
      exact hm.holds
    · rw [Function.update_of_ne hq]
      exact (hi.holds q).frame (fun d ↦ hdk q d hq) (fun o ↦ hok q o hq)
  · change fs'.output = some x at hx
    rcases hm.output with hsame | ⟨-, -, hnone⟩ | ⟨y, hy, hdel⟩
    · exact (hi.output x (hsame ▸ hx)).imp_right fun ⟨q, hq⟩ ↦ ⟨q, hq.append⟩
    · rw [hnone] at hx
      cases hx
    · obtain rfl : y = x := Option.some.inj (hy.symm.trans hx)
      exact .inr ⟨a.1, hdel⟩

/-- The invariant holds before any process has started. -/
theorem inv_initial (h : Hashes) (output : Option Content) : Inv h output (initial output) :=
  ⟨nofun, nofun, nofun, nofun, fun _ ↦ trivial, fun _ ↦ .inl⟩

/-- In every run of any number of processes, whatever fails or is killed: while the output
exists, it has the content of the start, or one that a backend has completed and that
check-hash has then accepted in the same process. -/
theorem output_delivered {h : Hashes} {output : Option Content} {as : List (Nat × Ending)}
    {s : State} (hrun : execute (step h) (initial output) as = some s) {x : Content}
    (hx : s.files.output = some x) : output = some x ∨ ∃ p, Delivered h s.log p x :=
  (execute_inv (Inv h output) (fun _ _ _ hi hs ↦ hi.step hs) (inv_initial h output) hrun).output x hx

/-- The content of `curl.tar`. -/
def curl : Content := [1]

/-- One hash for `curl.tar`, that only one content has. -/
def curlHashes : Hashes where
  hFile := some [⟨"sha256", "2a6f", "curl.tar", by decide⟩]
  base := "curl.tar"
  base_ne := by decide
  noCheck := false
  digest _ x := if x = curl then "2a6f" else "90b1"

/-- A process without a failure, from `mktempDir` on. -/
def fetch (p : Nat) : List (Nat × Ending) :=
  [.name p, .ok, .write (some curl), .ok, .ok, .ok, .ok, .ok, .name p, .ok, .ok, .append 1, .ok, .ok,
    .ok].map (p, ·)

/-- A process that finds no output and downloads it. -/
theorem output_delivered_curl : ∃ s,
    execute (step curlHashes) (initial none) ((0, .ok) :: fetch 0) = some s ∧
      s.files.output = some curl ∧ (none = some curl ∨ ∃ p, Delivered curlHashes s.log p curl) :=
  have ⟨s, hrun, hx⟩ := (Option.any_eq_true (fun s : State ↦ s.files.output = some curl)
    (execute (step curlHashes) (initial none) ((0, .ok) :: fetch 0))).mp (by decide +kernel)
  ⟨s, hrun, of_decide_eq_true hx, output_delivered hrun (of_decide_eq_true hx)⟩

end MotionPie.Support.Download
