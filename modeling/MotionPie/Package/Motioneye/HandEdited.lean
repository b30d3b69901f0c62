import MotionPie.Package.Motioneye.RoundTrip

/-!
# Writing the settings into a file that was edited by hand

The setter needs `motionKeepAlive` in its dictionary and fails on a key that it recognises
twice. What it writes is read back unless a line that it does not recognise comes behind.
-/

namespace MotionPie.Package.Motioneye.Extractl

open Base

/-- The settings that a dictionary stands for, with a default for each key. -/
def Dict.completed (d : Dict) : Settings where
  port := d.port.getD 80
  motionBinary := d.motionBinary.getD (str "/usr/bin/motion")
  motionKeepAlive := d.motionKeepAlive.getD false
  debug := d.debug.getD false
  prereleases := d.prereleases.getD false

/-- The text that a key is set to. -/
def Settings.text (t : Settings) : Key → Bytes
  | .port => showInt t.port
  | .motionBinary => t.motionBinary
  | .logLevel => if t.debug then str "debug" else str "info"
  | .mjpgClientIdleTimeout => if t.motionKeepAlive then str "0" else str "10"

/-- The texts of a dictionary with all its keys. -/
theorem text_setdefaults {d : Dict} (h : d.motionKeepAlive ≠ none) (k : Key) :
    d.setdefaults.text k = some (d.completed.text k) := by
  obtain ⟨b, hb⟩ := Option.ne_none_iff_exists'.mp h
  cases k <;> simp [Dict.setdefaults, Dict.text, Settings.text, Dict.completed, hb]

/-- A setting is read as what was written. -/
theorem assign_text (t : Settings) (k : Key) : t.assign (t.text k) k = t := by
  cases k with
  | port => simp [Settings.assign, Settings.text, toInt_showInt]
  | motionBinary => rfl
  | logLevel =>
    obtain ⟨_, _, _, debug, _⟩ := t
    cases debug <;> rfl
  | mjpgClientIdleTimeout =>
    obtain ⟨_, _, keepAlive, _, _⟩ := t
    cases keepAlive <;> rfl

/-- The texts of settings with a readable path can be read back. -/
theorem readable_text {t : Settings} (h : Readable t.motionBinary) (k : Key) :
    Readable (t.text k) := by
  cases k with
  | port => exact readable_showInt t.port
  | motionBinary => exact h
  | logLevel =>
    unfold Settings.text
    dsimp only
    split
    · exact ⟨by decide, by decide, by decide⟩
    · exact ⟨by decide, by decide, by decide⟩
  | mjpgClientIdleTimeout =>
    unfold Settings.text
    dsimp only
    split
    · exact ⟨by decide, by decide, by decide⟩
    · exact ⟨by decide, by decide, by decide⟩

/-- What a write of the texts `t` does to the lines: the recognised values of each key are
overwritten, and all else is kept. -/
structure Rewritten (t : Key → Bytes) (ls ls' : List Bytes) : Prop where
  key : ∀ k, values k.name ls' = overwrite single (t k) (values k.name ls)
  other : ∀ n, (∀ k, Key.name k ≠ n) → values n ls' = values n ls
  kept : ∀ managed, (∀ k, managed (Key.name k) = true) →
    others managed ls' = (others managed ls).map terminated

/-- The loop and the lines that are appended, written and read back. -/
theorem rewritten_of_rewriteLines {s s' : Dict} {t : Key → Bytes} {ls : List Bytes}
    (hline : ∀ l ∈ ls, IsLine l) (hs : ∀ k, s.text k = some (t k)) (ht : ∀ k, Readable (t k))
    (hs' : ∀ k, s'.text k = if count k ls = 0 then s.text k else none) :
    Rewritten t ls (readlines (written (ls.map (revise s) ++ s'.appended))) := by
  have hread : ∀ k v, s.text k = some v → Readable v := by
    intro k v hv
    obtain rfl : t k = v := Option.some.inj ((hs k).symm.trans hv)
    exact ht k
  have hread' : ∀ k v, s'.text k = some v → Readable v := by
    intro k v hv
    rw [hs' k] at hv
    split at hv
    · exact hread k v hv
    · cases hv
  have hlines : ∀ l ∈ ls.map (revise s) ++ s'.appended, IsLine l := by
    intro l hl
    rcases List.mem_append.mp hl with hl | hl
    · obtain ⟨m, hm, rfl⟩ := List.mem_map.mp hl
      unfold revise
      cases slot m with
      | none => exact hline m hm
      | some k =>
        simp only [hs k, Option.map_some, Option.getD_some]
        exact isLine_set (isName_name k) (ht k)
    · obtain ⟨k, -, hk⟩ := List.mem_filterMap.mp hl
      obtain ⟨v, hv, rfl⟩ := Option.map_eq_some_iff.mp hk
      exact isLine_set (isName_name k) (hread' k v hv)
  constructor
  · intro k
    have hmap : values k.name (ls.map (revise s)) = (values k.name ls).map (revised s k.name) :=
      values_map (fun l _ ↦ entry_revise hread l) k.name
    have hany : (values k.name ls).any single = decide (count k ls ≠ 0) := by
      rw [Bool.eq_iff_iff, List.any_eq_true, decide_eq_true_eq, ← Nat.pos_iff_ne_zero, count,
        List.countP_pos_iff]
    have hrevised : revised s k.name = fun v ↦ if single v then t k else v := by
      funext v
      simp only [revised, ofName_eq_some.mpr rfl, Option.bind_some, hs, Option.getD_some]
    rw [values_written hlines, values_append, values_appended hread', hmap, hs', hs, overwrite,
      hany, hrevised]
    by_cases hzero : count k ls = 0 <;> simp [hzero]
  · intro n hn
    have hnone : Key.ofName n = none := by
      cases hk : Key.ofName n with
      | none => rfl
      | some k => exact absurd (ofName_eq_some.mp hk) (hn k)
    have hrevised : revised s n = id := by
      funext v
      simp [revised, hnone]
    rw [values_written hlines, values_append, values_appended_of_other hread' hn, List.append_nil,
      values_map (fun l _ ↦ entry_revise hread l), hrevised, List.map_id]
  · intro managed hmanaged
    have hnone : others managed s'.appended = [] := by
      rw [others, List.filter_eq_nil_iff]
      intro l hl
      obtain ⟨k, -, hk⟩ := List.mem_filterMap.mp hl
      obtain ⟨v, hv, rfl⟩ := Option.map_eq_some_iff.mp hk
      simp [entry_line k (hread' k v hv), hmanaged]
    have hmap : others managed (ls.map (revise s)) = others managed ls := by
      apply others_map
      intro l _
      cases hslot : slot l with
      | none => exact .inl (by simp [revise, hslot])
      | some k =>
        obtain ⟨u, hu, -⟩ := slot_eq_some.mp hslot
        refine .inr ⟨k.name, u, t k, hu, ?_, hmanaged k⟩
        simp only [revise, hslot, hs k, Option.map_some, Option.getD_some]
        exact entry_line k (ht k)
    rw [others_written hlines, others, List.filter_append, ← others, ← others, hnone, hmap,
      List.append_nil]

/-- The setter writes all settings when no key is recognised twice. -/
theorem setMotioneyeSettings_of_count {d : Dict} {fs : Files} (hkeep : d.motionKeepAlive ≠ none)
    (hpath : Readable d.completed.motionBinary) (hcount : ∀ k, count k fs.lines ≤ 1) :
    ∃ fs', setMotioneyeSettings d fs = .ok fs' ∧
      Rewritten d.completed.text fs.lines fs'.lines ∧
      fs'.prereleases = d.completed.prereleases := by
  have htext := text_setdefaults hkeep
  have hhas : ∀ k, count k fs.lines ≤ d.setdefaults.has k := by
    intro k
    simpa [Dict.has, htext k] using hcount k
  obtain ⟨s', hrun, hs', hpre⟩ := rewriteLines_of_count hhas
  have hrewritten := rewritten_of_rewriteLines (fun l hl ↦ mem_readlines hl) htext
    (readable_text hpath) hs'
  have hrun' : setMotioneyeSettings d fs =
      .ok ⟨some (written (fs.lines.map (revise d.setdefaults) ++ s'.appended)),
        s'.prereleases.getD false⟩ := by
    unfold setMotioneyeSettings
    dsimp only
    rw [if_neg (show d.setdefaults.motionKeepAlive ≠ none from hkeep)]
    exact bind_ok.mpr ⟨_, hrun, rfl⟩
  refine ⟨_, hrun', hrewritten, ?_⟩
  rw [hpre]
  rfl

/-! ### What is read after a write -/

/-- Settings are what the last values are read as. -/
theorem read_eq_iff {s t : Settings} {ls : List Bytes} {w : Key → Bytes}
    (hw : ∀ k, (values k.name ls).getLast? = some (w k)) (hpre : s.prereleases = t.prereleases) :
    s.read ls = t ↔ ∀ k, t.assign (w k) k = t := by
  obtain ⟨port, binary, keepAlive, debug, pre⟩ := t
  have hall : ∀ P : Key → Prop, (∀ k, P k) ↔
      P .port ∧ P .motionBinary ∧ P .mjpgClientIdleTimeout ∧ P .logLevel := by
    intro P
    constructor
    · exact fun h ↦ ⟨h _, h _, h _, h _⟩
    · rintro ⟨hport, hbinary, hkeep, hlevel⟩ k
      cases k <;> assumption
  rw [hall]
  simp only [Settings.read, lastD, hw, Settings.assign, Settings.mk.injEq, Option.map_some,
    Option.getD_some, id_eq, true_and, and_true]
  simp only [hpre, and_true]

/-- A path that the getter returns can be read back. -/
theorem readable_of_get {fs : Files} {t : Settings} (h : getMotioneyeSettings fs = .ok t) :
    Readable t.motionBinary := by
  obtain ⟨-, rfl⟩ := getMotioneyeSettings_eq_ok.mp h
  simp only [Settings.read, lastD, initial, Option.map_id, id_eq]
  cases hlast : (values (Key.name .motionBinary) fs.lines).getLast? with
  | none => exact ⟨by decide, by decide, by decide⟩
  | some v => exact readable_of_mem_values (List.mem_of_mem_getLast? hlast)

/-- The setter completes, and the getter returns what it was given. -/
def Accepted (d : Dict) (fs : Files) : Prop :=
  ∃ fs', setMotioneyeSettings d fs = .ok fs' ∧ getMotioneyeSettings fs' = .ok d.completed

/-- The dictionary has `motionKeepAlive` and a path that can be read back. No key has two lines
with a single blank, and where another line of the key comes behind such a line, the last one
reads as the dictionary asks. -/
structure Unambiguous (d : Dict) (fs : Files) : Prop where
  keepAlive : d.motionKeepAlive ≠ none
  path : ∀ p ∈ d.motionBinary, Readable p
  once : ∀ k, count k fs.lines ≤ 1
  last : ∀ k, ∀ v ∈ (behind single (values (Key.name k) fs.lines)).getLast?,
    d.completed.assign v k = d.completed

/-- Without `motionKeepAlive` the message for the log cannot be put together. -/
theorem setMotioneyeSettings_of_none {d : Dict} (h : d.motionKeepAlive = none) (fs : Files) :
    setMotioneyeSettings d fs = .error (.keyError "motionKeepAlive") := by
  unfold setMotioneyeSettings
  dsimp only
  rw [if_pos (show d.setdefaults.motionKeepAlive = none from h)]
  rfl

-- The value that is read after a write.
private theorem getLast?_values {d : Dict} {fs fs' : Files} (honce : ∀ k, count k fs.lines ≤ 1)
    (h : Rewritten d.completed.text fs.lines fs'.lines) (k : Key) :
    (values k.name fs'.lines).getLast? =
      some ((behind single (values k.name fs.lines)).getLast?.getD (d.completed.text k)) := by
  rw [h.key k]
  exact getLast?_overwrite (honce k)

/-- Every port in the file after a write is a number. -/
theorem port_rewritten {t : Settings} {fs fs' : Files}
    (hport : ∀ v ∈ values (Key.name .port) fs.lines, toInt v ≠ none)
    (h : Rewritten t.text fs.lines fs'.lines) :
    ∀ v ∈ values (Key.name .port) fs'.lines, toInt v ≠ none := by
  intro v hv
  have hwritten : toInt (t.text .port) ≠ none := by simp [Settings.text, toInt_showInt]
  rw [h.key .port, overwrite, List.mem_append, List.mem_map] at hv
  rcases hv with ⟨u, hu, rfl⟩ | hv
  · split
    · exact hwritten
    · exact hport u hu
  · split at hv
    · cases hv
    · rw [List.mem_singleton.mp hv]
      exact hwritten

/-- Where the getter succeeds, the setter completes and is read back if and only if the
dictionary and the file are unambiguous. -/
theorem accepted_iff {d : Dict} {fs : Files} (hget : ∃ t, getMotioneyeSettings fs = .ok t) :
    Accepted d fs ↔ Unambiguous d fs := by
  obtain ⟨t, hget⟩ := hget
  obtain ⟨hport, -⟩ := getMotioneyeSettings_eq_ok.mp hget
  constructor
  · rintro ⟨fs', hset, hget'⟩
    have hpath := readable_of_get hget'
    have hkeep : d.motionKeepAlive ≠ none := by
      intro hnone
      rw [setMotioneyeSettings_of_none hnone] at hset
      cases hset
    have hmissing : d.setdefaults.motionKeepAlive ≠ none := hkeep
    have honce : ∀ k, count k fs.lines ≤ 1 := by
      intro k
      unfold setMotioneyeSettings at hset
      dsimp only at hset
      rw [if_neg hmissing] at hset
      obtain ⟨out, hrun, -⟩ := bind_ok.mp hset
      have hle := count_le_of_rewriteLines hrun k
      simpa [Dict.has, text_setdefaults hkeep] using hle
    obtain ⟨fs₁, hset₁, hrewritten, hpre⟩ := setMotioneyeSettings_of_count hkeep hpath honce
    obtain rfl : fs₁ = fs' := Except.ok.inj (hset₁.symm.trans hset)
    obtain ⟨-, hread⟩ := getMotioneyeSettings_eq_ok.mp hget'
    have hassign := (read_eq_iff (getLast?_values honce hrewritten) hpre).mp hread.symm
    refine ⟨hkeep, ?_, honce, ?_⟩
    · intro p hp
      have hp' : d.completed.motionBinary = p := by simp [Dict.completed, Option.mem_def.mp hp]
      exact hp' ▸ hpath
    · intro k v hv
      have hk := hassign k
      rwa [Option.mem_def.mp hv] at hk
  · intro h
    have hpath : Readable d.completed.motionBinary := by
      cases hd : d.motionBinary with
      | none =>
        simp only [Dict.completed, hd, Option.getD_none]
        exact ⟨by decide, by decide, by decide⟩
      | some p =>
        simp only [Dict.completed, hd, Option.getD_some]
        exact h.path p hd
    obtain ⟨fs', hset, hrewritten, hpre⟩ := setMotioneyeSettings_of_count h.keepAlive hpath h.once
    refine ⟨fs', hset, getMotioneyeSettings_eq_ok.mpr ⟨port_rewritten hport hrewritten, ?_⟩⟩
    refine ((read_eq_iff (getLast?_values h.once hrewritten) hpre).mpr fun k ↦ ?_).symm
    cases hlast : (behind single (values k.name fs.lines)).getLast? with
    | none => exact assign_text d.completed k
    | some v => exact h.last k v hlast

/-- A dictionary with a port for a file with a port. -/
theorem accepted_iff_port :
    Accepted ⟨some 81, none, some true, none, none⟩ ⟨some (str "port 80\n"), false⟩ ↔
      Unambiguous ⟨some 81, none, some true, none, none⟩ ⟨some (str "port 80\n"), false⟩ :=
  accepted_iff ⟨⟨80, str "/usr/bin/motion", false, false, false⟩, by decide⟩

/-- The setter has no default for `motionKeepAlive`. -/
theorem keepAlive_missing :
    getMotioneyeSettings ⟨some (str "port 80\n"), false⟩ =
        .ok ⟨80, str "/usr/bin/motion", false, false, false⟩ ∧
      setMotioneyeSettings ⟨some 81, none, none, none, none⟩ ⟨some (str "port 80\n"), false⟩ =
        .error (.keyError "motionKeepAlive") ∧
      ¬ Accepted ⟨some 81, none, none, none, none⟩ ⟨some (str "port 80\n"), false⟩ := by
  refine ⟨by decide, by decide, ?_⟩
  rintro ⟨fs', hset, -⟩
  cases hset

end MotionPie.Package.Motioneye.Extractl
