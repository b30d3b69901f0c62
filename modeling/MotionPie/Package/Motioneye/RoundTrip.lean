import MotionPie.Base.Loop
import MotionPie.Package.Motioneye.Entries

/-!
# What the settings of motioneye.conf are read as

The getter takes the last value of each key. The setter overwrites the values that it
recognises, which succeeds as long as no key has two of them.
-/

namespace MotionPie.Package.Motioneye.Extractl

open Base

/-! ### Keys -/

/-- A name that is a key. -/
theorem ofName_eq_some {n : Bytes} {k : Key} : Key.ofName n = some k ↔ k.name = n := by
  constructor
  · intro h
    simpa using List.find?_some h
  · rintro rfl
    cases k <;> decide

/-- Different keys are written differently. -/
theorem name_inj {k k' : Key} (h : k.name = k'.name) : k = k' :=
  Option.some.inj ((ofName_eq_some.mpr rfl).symm.trans (ofName_eq_some.mpr h.symm))

/-- A key is read back as it was written. -/
theorem isName_name (k : Key) : IsName k.name := by
  cases k <;> exact ⟨by decide, by decide, by decide, by decide, by decide⟩

/-- A line that sets a key is an entry of the key. -/
theorem entry_line (k : Key) {v : Bytes} (hv : Readable v) : entry (k.line v) = some (k.name, v) :=
  entry_set (isName_name k) hv

/-! ### Reading -/

/-- What the last value is read as. -/
def lastD {β : Type} (read : Bytes → β) (d : β) (vs : List Bytes) : β :=
  (vs.getLast?.map read).getD d

/-- The settings after the lines have been read. -/
def Settings.read (s : Settings) (ls : List Bytes) : Settings where
  port := lastD (fun v ↦ (toInt v).getD 0) s.port (values (Key.name .port) ls)
  motionBinary := lastD id s.motionBinary (values (Key.name .motionBinary) ls)
  motionKeepAlive := lastD (fun v ↦ decide (v = str "0")) s.motionKeepAlive
    (values (Key.name .mjpgClientIdleTimeout) ls)
  debug := lastD (fun v ↦ decide (v = str "debug")) s.debug (values (Key.name .logLevel) ls)
  prereleases := s.prereleases

/-- The settings after one value has been read. -/
def Settings.assign (s : Settings) (v : Bytes) : Key → Settings
  | .port => { s with port := (toInt v).getD 0 }
  | .motionBinary => { s with motionBinary := v }
  | .logLevel => { s with debug := v = str "debug" }
  | .mjpgClientIdleTimeout => { s with motionKeepAlive := v = str "0" }

/-- A further value in front. -/
theorem lastD_cons {β : Type} (read : Bytes → β) (d : β) (v : Bytes) (vs : List Bytes) :
    lastD read d (v :: vs) = lastD read (read v) vs := by
  rw [lastD, lastD, List.getLast?_cons]
  cases vs.getLast? <;> rfl

/-- The values of a key when an entry is put in front. -/
theorem values_cons_key {k : Key} {l v : Bytes} (h : entry l = some (k.name, v)) (k' : Key)
    (ls : List Bytes) :
    values k'.name (l :: ls) = if k = k' then v :: values k'.name ls else values k'.name ls := by
  split
  · next hk => exact values_cons_self (hk ▸ h) ls
  · next hk => exact values_cons_of_ne h (fun hname ↦ hk (name_inj hname)) ls

/-- Reading an entry first. -/
theorem Settings.read_assign {k : Key} {l v : Bytes} (h : entry l = some (k.name, v))
    (s : Settings) (ls : List Bytes) : (s.assign v k).read ls = s.read (l :: ls) := by
  cases k <;> simp [Settings.read, Settings.assign, values_cons_key h, lastD_cons]

-- A line that is not an entry of a key is passed over.
private theorem readLine_of_other {line : Bytes} (h : ∀ k v, entry line ≠ some (Key.name k, v))
    (s : Settings) : readLine s line = .ok s := by
  unfold readLine
  unfold entry at h
  dsimp only
  split
  · rfl
  · split
    · next name value hsplit =>
      simp only [hsplit, ne_eq, Option.some.injEq, Prod.mk.injEq, not_and] at h
      have hne : ∀ k, dashed name ≠ Key.name k := fun k hk ↦ h k value hk rfl
      have hport : dashed name ≠ str "port" := hne .port
      have hbinary : dashed name ≠ str "motion-binary" := hne .motionBinary
      have hlevel : dashed name ≠ str "log-level" := hne .logLevel
      have htimeout : dashed name ≠ str "mjpg-client-idle-timeout" := hne .mjpgClientIdleTimeout
      rw [if_neg hport, if_neg hbinary, if_neg hlevel, if_neg htimeout]
    · rfl

-- An entry of a key is read.
private theorem readLine_of_key {line v : Bytes} {k : Key} (h : entry line = some (k.name, v))
    (s : Settings) : readLine s line =
      if k = .port ∧ toInt v = none then .error .valueError else .ok (s.assign v k) := by
  have hne := strip_ne_nil_of_entry h
  obtain ⟨name, hname, hstrip, hdashed⟩ := entry_eq_some.mp h
  have hsplit : split 32 1 (strip line) = [name, v] := split_one_eq.mpr ⟨hname, hstrip⟩
  simp only [readLine, if_neg hne, hsplit, hdashed]
  cases k with
  | port =>
    cases hv : toInt v with
    | none => simp [Key.name]
    | some p => simp [Key.name, hv, Settings.assign]
  | motionBinary => rfl
  | logLevel => rfl
  | mjpgClientIdleTimeout => rfl

/-- The getter takes the last value of each key, and every port must be a number. -/
theorem foldlM_readLine_eq_ok {ls : List Bytes} {s s' : Settings} :
    ls.foldlM readLine s = .ok s' ↔
      (∀ v ∈ values (Key.name .port) ls, toInt v ≠ none) ∧ s' = s.read ls := by
  induction ls generalizing s with
  | nil =>
    constructor
    · intro h
      exact ⟨fun v hv ↦ absurd hv List.not_mem_nil, (Except.ok.inj h).symm⟩
    · rintro ⟨-, rfl⟩
      rfl
  | cons l ls ih =>
    rw [foldlM_cons_ok]
    by_cases he : ∃ k v, entry l = some (Key.name k, v)
    · obtain ⟨k, v, he⟩ := he
      rw [readLine_of_key he, values_cons_key he, ← Settings.read_assign he]
      by_cases hport : k = .port
      · subst hport
        cases hv : toInt v <;> simp [hv, ih]
      · simp [hport, ih]
    · have hother : ∀ k v, entry l ≠ some (Key.name k, v) := fun k v h ↦ he ⟨k, v, h⟩
      have hvalues : ∀ k : Key, values k.name (l :: ls) = values k.name ls := by
        intro k
        cases hl : entry l with
        | none => exact values_cons_of_none hl ls
        | some e =>
          obtain ⟨n, v⟩ := e
          apply values_cons_of_ne hl
          rintro rfl
          exact hother k v hl
      simp only [readLine_of_other hother, Except.ok.injEq, exists_eq_left', ih, Settings.read,
        hvalues]

/-- The settings before any line has been read. -/
def initial (prereleases : Bool) : Settings := ⟨80, str "/usr/bin/motion", false, false, prereleases⟩

/-- The getter, by the values of the file. -/
theorem getMotioneyeSettings_eq_ok {fs : Files} {t : Settings} :
    getMotioneyeSettings fs = .ok t ↔
      (∀ v ∈ values (Key.name .port) fs.lines, toInt v ≠ none) ∧
        t = (initial fs.prereleases).read fs.lines :=
  foldlM_readLine_eq_ok

/-! ### Writing -/

/-- The key of a line that the setter recognises. -/
def slot (line : Bytes) : Option Key :=
  (entry line).bind fun e ↦ if single e.2 then Key.ofName e.1 else none

/-- A recognised line is an entry of a key with no blank in the value. -/
theorem slot_eq_some {line : Bytes} {k : Key} :
    slot line = some k ↔ ∃ v, entry line = some (k.name, v) ∧ single v = true := by
  simp only [slot, Option.bind_eq_some_iff]
  constructor
  · rintro ⟨⟨n, v⟩, he, hk⟩
    split at hk
    · next hv => exact ⟨v, by rw [he, ofName_eq_some.mp hk], hv⟩
    · cases hk
  · rintro ⟨v, he, hv⟩
    exact ⟨(k.name, v), he, by rw [if_pos hv, ofName_eq_some.mpr rfl]⟩

-- What the setter splits in two is an entry with no blank in the value.
private theorem slot_of_split {line name v : Bytes} (h : split 32 2 (strip line) = [name, v]) :
    slot line = Key.ofName (dashed name) := by
  obtain ⟨hsplit, hv⟩ := split_two_eq.mp h
  simp [slot, entry, hsplit, single, hv]

-- A line that is not recognised is kept.
private theorem rewriteLine_of_none {line : Bytes} (h : slot line = none) (s : Dict) :
    rewriteLine s line = .ok (s, line) := by
  unfold rewriteLine
  split
  · rfl
  · split
    · next name v hsplit => rw [← slot_of_split hsplit, h]
    · rfl

-- A recognised line takes the text of its key out of the dictionary.
private theorem rewriteLine_of_some {line : Bytes} {k : Key} (h : slot line = some k) (s : Dict) :
    rewriteLine s line =
      match s.text k with
      | some value => .ok (s.pop k, k.line value)
      | none => .error (.keyError k.entry) := by
  obtain ⟨v, he, hv⟩ := slot_eq_some.mp h
  have hne := strip_ne_nil_of_entry he
  obtain ⟨name, hname, hstrip, hdashed⟩ := entry_eq_some.mp he
  have hsplit : split 32 2 (strip line) = [name, v] :=
    split_two_eq.mpr ⟨split_one_eq.mpr ⟨hname, hstrip⟩, by simpa [single] using hv⟩
  cases htext : s.text k with
  | none => simp [rewriteLine, hne, hsplit, hdashed, ofName_eq_some.mpr rfl, htext]
  | some value => simp [rewriteLine, hne, hsplit, hdashed, ofName_eq_some.mpr rfl, htext]

/-- `pop` takes the text of one key. -/
@[simp] theorem text_pop (s : Dict) (k k' : Key) :
    (s.pop k).text k' = if k = k' then none else s.text k' := by
  cases k <;> cases k' <;> rfl

/-- `pop` leaves the prereleases alone. -/
@[simp] theorem prereleases_pop (s : Dict) (k : Key) : (s.pop k).prereleases = s.prereleases := by
  cases k <;> rfl

/-- A line after the loop. -/
def revise (s : Dict) (line : Bytes) : Bytes :=
  match slot line with
  | some k => ((s.text k).map k.line).getD line
  | none => line

/-- How often the setter recognises a key. -/
def count (k : Key) (ls : List Bytes) : Nat := (values k.name ls).countP single

/-- One line more. -/
theorem count_cons (k : Key) (l : Bytes) (ls : List Bytes) :
    count k (l :: ls) = (if slot l = some k then 1 else 0) + count k ls := by
  unfold count
  cases he : entry l with
  | none => simp [values_cons_of_none he, slot, he]
  | some e =>
    obtain ⟨n, v⟩ := e
    by_cases hn : n = k.name
    · subst hn
      have hslot : slot l = some k ↔ single v = true := by simp [slot_eq_some, he]
      simp only [values_cons_self he, List.countP_cons, hslot, Nat.add_comm]
    · have hslot : slot l ≠ some k := by
        intro h
        obtain ⟨u, hu, -⟩ := slot_eq_some.mp h
        simp_all
      simp [values_cons_of_ne he hn, hslot]

/-- The keys that the dictionary still has. -/
def Dict.has (s : Dict) (k : Key) : Nat := if (s.text k).isSome then 1 else 0

-- A key that is not recognised any more is not revised any more.
private theorem map_revise_pop {s : Dict} {k : Key} {ls : List Bytes} (h : count k ls = 0) :
    ls.map (revise (s.pop k)) = ls.map (revise s) := by
  induction ls with
  | nil => rfl
  | cons l ls ih =>
    rw [count_cons] at h
    have hslot : slot l ≠ some k := fun hl ↦ by simp [hl] at h
    have hrest : count k ls = 0 := by omega
    rw [List.map_cons, List.map_cons, ih hrest]
    congr 1
    unfold revise
    split
    · next k' hk' =>
      have hne : k ≠ k' := fun hkk ↦ hslot (hkk ▸ hk')
      simp [hne]
    · rfl

/-- The loop succeeds when the dictionary has every key as often as it is recognised. -/
theorem rewriteLines_of_count {s : Dict} {ls : List Bytes} (h : ∀ k, count k ls ≤ s.has k) :
    ∃ s', rewriteLines s ls = .ok (s', ls.map (revise s)) ∧
      (∀ k, s'.text k = if count k ls = 0 then s.text k else none) ∧
      s'.prereleases = s.prereleases := by
  induction ls generalizing s with
  | nil => exact ⟨s, rfl, fun k ↦ by simp [count], rfl⟩
  | cons l ls ih =>
    simp only [count_cons] at h ⊢
    cases hl : slot l with
    | none =>
      simp only [hl, reduceCtorEq, if_false, Nat.zero_add] at h ⊢
      obtain ⟨s', hrun, htext, hpre⟩ := ih h
      refine ⟨s', ?_, htext, hpre⟩
      have hkeep : revise s l = l := by simp only [revise, hl]
      rw [rewriteLines, rewriteLine_of_none hl, List.map_cons, hkeep]
      exact bind_ok.mpr ⟨_, rfl, bind_ok.mpr ⟨_, hrun, rfl⟩⟩
    | some k =>
      simp only [hl, Option.some.injEq] at h ⊢
      have hk := h k
      rw [if_pos rfl, Dict.has] at hk
      obtain ⟨v, hv⟩ : ∃ v, s.text k = some v := by
        cases hs : s.text k with
        | none => simp [hs] at hk
        | some v => exact ⟨v, rfl⟩
      have hzero : count k ls = 0 := by
        simp only [hv, Option.isSome_some, if_true] at hk
        omega
      have hpop : ∀ k', count k' ls ≤ (s.pop k).has k' := by
        intro k'
        have hk' := h k'
        by_cases hkk : k = k'
        · subst hkk
          omega
        · simpa [Dict.has, hkk] using hk'
      obtain ⟨s', hrun, htext, hpre⟩ := ih hpop
      refine ⟨s', ?_, ?_, hpre.trans (prereleases_pop s k)⟩
      · have hset : revise s l = k.line v := by simp [revise, hl, hv]
        rw [map_revise_pop hzero] at hrun
        rw [rewriteLines, rewriteLine_of_some hl, hv, List.map_cons, hset]
        exact bind_ok.mpr ⟨_, rfl, bind_ok.mpr ⟨_, hrun, rfl⟩⟩
      · intro k'
        rw [htext k', text_pop]
        by_cases hkk : k = k'
        · simp [hkk]
        · simp [hkk]

/-- The loop fails when a key is recognised more often than the dictionary has it. -/
theorem count_le_of_rewriteLines {s : Dict} {ls : List Bytes} {out : Dict × List Bytes}
    (h : rewriteLines s ls = .ok out) (k : Key) : count k ls ≤ s.has k := by
  induction ls generalizing s out with
  | nil => simp [count]
  | cons l ls ih =>
    rw [rewriteLines] at h
    obtain ⟨⟨s₁, l₁⟩, hfirst, h⟩ := bind_ok.mp h
    obtain ⟨⟨s₂, ls₂⟩, hrest, -⟩ := bind_ok.mp h
    have hcount := ih hrest
    rw [count_cons]
    cases hl : slot l with
    | none =>
      rw [rewriteLine_of_none hl] at hfirst
      obtain ⟨rfl, -⟩ : s = s₁ ∧ l = l₁ := by simpa using hfirst
      simpa using hcount
    | some k' =>
      rw [rewriteLine_of_some hl] at hfirst
      cases hv : s.text k' with
      | none => simp [hv] at hfirst
      | some v =>
        obtain ⟨rfl, -⟩ : s.pop k' = s₁ ∧ k'.line v = l₁ := by simpa [hv] using hfirst
        by_cases hkk : k' = k
        · subst hkk
          have hzero : count k' ls = 0 := by simpa [Dict.has] using hcount
          simp [Dict.has, hv, hzero]
        · simpa [Dict.has, hkk] using hcount

/-! ### The file after a write -/

/-- The value of an entry after the loop. -/
def revised (s : Dict) (n v : Bytes) : Bytes :=
  if single v then ((Key.ofName n).bind s.text).getD v else v

/-- An entry after the loop. -/
theorem entry_revise {s : Dict} (hs : ∀ k v, s.text k = some v → Readable v) (l : Bytes) :
    entry (revise s l) = (entry l).map fun e ↦ (e.1, revised s e.1 e.2) := by
  unfold revise revised
  cases he : entry l with
  | none => simp [slot, he]
  | some e =>
    obtain ⟨n, u⟩ := e
    cases hslot : slot l with
    | none =>
      have hnone : single u = true → Key.ofName n = none := by
        intro hu
        simpa [slot, he, hu] using hslot
      by_cases hu : single u = true
      · simp [he, hnone hu]
      · simp [he, hu]
    | some k =>
      obtain ⟨v, hv, hsingle⟩ := slot_eq_some.mp hslot
      obtain ⟨rfl, rfl⟩ : n = k.name ∧ u = v := by simpa [he] using hv
      cases htext : s.text k with
      | none => simp [he, htext, ofName_eq_some.mpr rfl]
      | some w => simp [entry_line k (hs k w htext), hsingle, htext, ofName_eq_some.mpr rfl]

/-- Values after a change of entries that keeps their names. -/
theorem values_map {f : Bytes → Bytes} {g : Bytes → Bytes → Bytes} {ls : List Bytes}
    (h : ∀ l ∈ ls, entry (f l) = (entry l).map fun e ↦ (e.1, g e.1 e.2)) (n : Bytes) :
    values n (ls.map f) = (values n ls).map (g n) := by
  induction ls with
  | nil => rfl
  | cons l ls ih =>
    have hl := h l List.mem_cons_self
    have hls := ih fun m hm ↦ h m (List.mem_cons_of_mem l hm)
    rw [List.map_cons]
    cases he : entry l with
    | none =>
      rw [he] at hl
      rw [values_cons_of_none hl, values_cons_of_none he, hls]
    | some e =>
      obtain ⟨m, u⟩ := e
      rw [he] at hl
      by_cases hm : m = n
      · subst hm
        rw [values_cons_self hl, values_cons_self he, List.map_cons, hls]
      · rw [values_cons_of_ne hl hm, values_cons_of_ne he hm, hls]

-- The line that is appended for one key.
private theorem values_appended_one {s : Dict} (hs : ∀ k v, s.text k = some v → Readable v)
    (k : Key) (n : Bytes) : values n ((s.text k).map k.line).toList =
      if k.name = n then (s.text k).toList else [] := by
  cases htext : s.text k with
  | none => simp
  | some v =>
    have he := entry_line k (hs k v htext)
    by_cases hn : k.name = n
    · simp only [Option.map_some, Option.toList_some, if_pos hn]
      exact values_cons_self (hn ▸ he) []
    · simp only [Option.map_some, Option.toList_some, if_neg hn]
      exact values_cons_of_ne he hn []

-- The appended lines, one key after the other.
private theorem appended_eq (s : Dict) :
    s.appended = Key.all.flatMap fun k ↦ ((s.text k).map k.line).toList := by
  simp [Dict.appended, List.filterMap_eq_flatMap_toList]

/-- What is left in the dictionary is appended. -/
theorem values_appended {s : Dict} (hs : ∀ k v, s.text k = some v → Readable v) (k : Key) :
    values k.name s.appended = (s.text k).toList := by
  have hname : ∀ k' : Key, k'.name = k.name ↔ k' = k := fun k' ↦ ⟨name_inj, congrArg _⟩
  rw [appended_eq]
  simp only [Key.all, List.flatMap_cons, List.flatMap_nil, values_append, values_nil,
    values_appended_one hs, hname]
  cases k <;> simp

/-- Nothing is appended for another name. -/
theorem values_appended_of_other {s : Dict} (hs : ∀ k v, s.text k = some v → Readable v)
    {n : Bytes} (hn : ∀ k, Key.name k ≠ n) : values n s.appended = [] := by
  rw [appended_eq]
  simp [Key.all, values_appended_one hs, hn]

/-- The lines that are not entries of a managed name. -/
def others (managed : Bytes → Bool) (ls : List Bytes) : List Bytes :=
  ls.filter fun l ↦ strip l ≠ [] && (entry l).all fun e ↦ !managed e.1

/-- Changing entries of managed names only keeps the others. -/
theorem others_map {managed : Bytes → Bool} {f : Bytes → Bytes} {ls : List Bytes}
    (h : ∀ l ∈ ls, f l = l ∨ ∃ n u v, entry l = some (n, u) ∧ entry (f l) = some (n, v) ∧
      managed n = true) : others managed (ls.map f) = others managed ls := by
  induction ls with
  | nil => rfl
  | cons l ls ih =>
    have hls := ih fun m hm ↦ h m (List.mem_cons_of_mem l hm)
    unfold others at hls ⊢
    rw [List.map_cons]
    rcases h l List.mem_cons_self with hl | ⟨n, u, v, he, he', hn⟩
    · rw [hl, List.filter_cons, List.filter_cons, hls]
    · rw [List.filter_cons_of_neg (by simp [he', hn]), List.filter_cons_of_neg (by simp [he, hn]),
        hls]

/-- Lines that have been written are read back with the others among them, each terminated. -/
theorem others_written {managed : Bytes → Bool} {ls : List Bytes} (h : ∀ l ∈ ls, IsLine l) :
    others managed (readlines (written ls)) = (others managed ls).map terminated := by
  rw [readlines_written h]
  clear h
  induction ls with
  | nil => rfl
  | cons l ls ih =>
    have hterm : strip (terminated l) = strip l := by
      unfold terminated
      split
      · rfl
      · exact strip_append_newline l
    unfold others at ih ⊢
    by_cases hblank : strip l = []
    · rw [List.filter_cons_of_neg (by simpa using hblank), ih,
        List.filter_cons_of_neg (by simp [hblank])]
    · rw [List.filter_cons_of_pos (by simpa using hblank), List.map_cons]
      by_cases hother : ((entry l).all fun e ↦ !managed e.1) = true
      · rw [List.filter_cons_of_pos (by simp [hterm, hblank, entry_terminated, hother]), ih,
          List.filter_cons_of_pos (by simp [hblank, hother]), List.map_cons]
      · rw [List.filter_cons_of_neg (by simp [entry_terminated, hother]), ih,
          List.filter_cons_of_neg (by simp [hother])]

end MotionPie.Package.Motioneye.Extractl
