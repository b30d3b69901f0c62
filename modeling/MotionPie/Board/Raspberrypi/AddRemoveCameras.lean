import MotionPie.Package.Motioneye.HandEdited

/-!
# Two writers of motioneye.conf

`_set_motioneye_add_remove_cameras` of `board/raspberrypi/motioneye-modules/streameyectl.py`
rewrites the same file as `_set_motioneye_settings`. Starting from the file that is shipped,
whatever order they run in, each key keeps the value written last and the other lines stay.
-/

namespace MotionPie.Board.Raspberrypi

open Base Package.Motioneye.Extractl

/-- The key of this writer. -/
def addRemoveCameras : Bytes := str "add-remove-cameras"

/-- `str(enabled).lower()`. -/
def lower (enabled : Bool) : Bytes := if enabled then str "true" else str "false"

/-- The line that sets the key. -/
def camerasLine (enabled : Bool) : Bytes := addRemoveCameras ++ 32 :: lower enabled

/-- The test of the loop, `streameyectl.py:256-271`. -/
def isCamerasLine (line : Bytes) : Bool :=
  if strip line = [] then false
  else match split 32 2 (strip line) with
    | [name, _] => dashed name = addRemoveCameras
    | _ => false

/-- `_set_motioneye_add_remove_cameras`,
`board/raspberrypi/motioneye-modules/streameyectl.py:246-281`. -/
def setMotioneyeAddRemoveCameras (enabled : Bool) (fs : Files) : Files :=
  let lines := fs.lines.map fun line ↦ if isCamerasLine line then camerasLine enabled else line
  let lines := if fs.lines.any isCamerasLine then lines else lines ++ [camerasLine enabled]
  { fs with motioneyeConf := some (written lines) }

/-! ### The file after a write -/

/-- The key is read back as it was written. -/
theorem isName_addRemoveCameras : IsName addRemoveCameras :=
  ⟨by decide, by decide, by decide, by decide, by decide⟩

/-- No key of the settings. -/
theorem addRemoveCameras_ne (k : Key) : k.name ≠ addRemoveCameras := by
  cases k <;> decide

/-- The two values can be read back. -/
theorem readable_lower (enabled : Bool) : Readable (lower enabled) := by
  cases enabled <;> exact ⟨by decide, by decide, by decide⟩

/-- The line is an entry of the key. -/
theorem entry_camerasLine (enabled : Bool) :
    entry (camerasLine enabled) = some (addRemoveCameras, lower enabled) :=
  entry_set isName_addRemoveCameras (readable_lower enabled)

/-- The writer recognises the entries of its key with no blank in the value. -/
theorem isCamerasLine_eq (line : Bytes) :
    isCamerasLine line = (entry line).any fun e ↦ e.1 = addRemoveCameras && single e.2 := by
  rw [Bool.eq_iff_iff]
  constructor
  · intro h
    unfold isCamerasLine at h
    split at h
    · cases h
    · split at h
      · next name v hsplit =>
        obtain ⟨hone, hv⟩ := split_two_eq.mp hsplit
        have hname : dashed name = addRemoveCameras := by simpa using h
        simp [entry, hone, hname, single, hv]
      · cases h
  · intro h
    cases he : entry line with
    | none => simp [he] at h
    | some e =>
      obtain ⟨n, v⟩ := e
      obtain ⟨hn, hv⟩ : n = addRemoveCameras ∧ single v = true := by simpa [he] using h
      have hne := strip_ne_nil_of_entry he
      obtain ⟨name, hname, hstrip, hdashed⟩ := entry_eq_some.mp he
      have hsplit : split 32 2 (strip line) = [name, v] :=
        split_two_eq.mpr ⟨split_one_eq.mpr ⟨hname, hstrip⟩, by simpa [single] using hv⟩
      simp [isCamerasLine, hne, hsplit, hdashed, hn]

section Write

variable (enabled : Bool) (fs : Files)

-- The value of an entry after the loop.
private def looped (n v : Bytes) : Bytes :=
  if n = addRemoveCameras && single v then lower enabled else v

-- A line after the loop.
private theorem entry_loop (line : Bytes) :
    entry (if isCamerasLine line then camerasLine enabled else line) =
      (entry line).map fun e ↦ (e.1, looped enabled e.1 e.2) := by
  rw [isCamerasLine_eq]
  unfold looped
  cases he : entry line with
  | none => simp [he]
  | some e =>
    obtain ⟨n, v⟩ := e
    by_cases hn : n = addRemoveCameras ∧ single v = true
    · simp [hn.1, hn.2, entry_camerasLine]
    · rw [Option.any_some, if_neg (by simpa using hn), he]
      simp [hn]

-- Every line that is written is a line.
private theorem isLine_loop : ∀ l ∈ (fs.lines.map fun line ↦
      if isCamerasLine line then camerasLine enabled else line) ++
      (if fs.lines.any isCamerasLine then [] else [camerasLine enabled]), IsLine l := by
  have hset : IsLine (camerasLine enabled) :=
    isLine_set isName_addRemoveCameras (readable_lower enabled)
  intro l hl
  rcases List.mem_append.mp hl with hl | hl
  · obtain ⟨m, hm, rfl⟩ := List.mem_map.mp hl
    split
    · exact hset
    · exact mem_readlines hm
  · split at hl
    · cases hl
    · rw [List.mem_singleton.mp hl]
      exact hset

-- The lines of the file after the write.
private theorem lines_set : (setMotioneyeAddRemoveCameras enabled fs).lines =
    readlines (written ((fs.lines.map fun line ↦
      if isCamerasLine line then camerasLine enabled else line) ++
      if fs.lines.any isCamerasLine then [] else [camerasLine enabled])) := by
  show readlines (written (if fs.lines.any isCamerasLine then _ else _)) = _
  by_cases hfound : fs.lines.any isCamerasLine = true
  · rw [if_pos hfound, if_pos hfound, List.append_nil]
  · rw [if_neg hfound, if_neg hfound]

/-- The recognised values of the key are overwritten. -/
theorem values_addRemoveCameras :
    values addRemoveCameras (setMotioneyeAddRemoveCameras enabled fs).lines =
      overwrite single (lower enabled) (values addRemoveCameras fs.lines) := by
  have hmap : values addRemoveCameras (fs.lines.map fun line ↦
      if isCamerasLine line then camerasLine enabled else line) =
        (values addRemoveCameras fs.lines).map (looped enabled addRemoveCameras) :=
    values_map (fun l _ ↦ entry_loop enabled l) addRemoveCameras
  have hlooped : looped enabled addRemoveCameras =
      fun v ↦ if single v then lower enabled else v := by
    funext v
    simp [looped]
  have hany : fs.lines.any isCamerasLine = (values addRemoveCameras fs.lines).any single := by
    rw [Bool.eq_iff_iff, List.any_eq_true, List.any_eq_true]
    simp only [isCamerasLine_eq, Option.any_eq_true, mem_values]
    constructor
    · rintro ⟨l, hl, ⟨n, v⟩, he, hn⟩
      obtain ⟨rfl, hv⟩ : n = addRemoveCameras ∧ single v = true := by simpa using hn
      exact ⟨v, ⟨l, hl, he⟩, hv⟩
    · rintro ⟨v, ⟨l, hl, he⟩, hv⟩
      exact ⟨l, hl, _, he, by simp [hv]⟩
  have happended : values addRemoveCameras
      (if fs.lines.any isCamerasLine then [] else [camerasLine enabled]) =
        if (values addRemoveCameras fs.lines).any single then [] else [lower enabled] := by
    rw [hany]
    split
    · rfl
    · exact values_cons_self (entry_camerasLine enabled) []
  rw [lines_set, values_written (isLine_loop enabled fs), values_append, hmap, hlooped, happended,
    overwrite]

/-- The values of every other name are kept. -/
theorem values_of_ne {n : Bytes} (hn : n ≠ addRemoveCameras) :
    values n (setMotioneyeAddRemoveCameras enabled fs).lines = values n fs.lines := by
  have hlooped : looped enabled n = id := by
    funext v
    simp [looped, hn]
  have happended : values n (if fs.lines.any isCamerasLine then [] else [camerasLine enabled]) =
      [] := by
    split
    · rfl
    · exact values_cons_of_ne (entry_camerasLine enabled) (Ne.symm hn) []
  rw [lines_set, values_written (isLine_loop enabled fs), values_append,
    values_map (fun l _ ↦ entry_loop enabled l), hlooped, List.map_id, happended, List.append_nil]

/-- The other lines are kept. -/
theorem others_addRemoveCameras {managed : Bytes → Bool} (h : managed addRemoveCameras = true) :
    others managed (setMotioneyeAddRemoveCameras enabled fs).lines =
      (others managed fs.lines).map terminated := by
  have happended : others managed
      (if fs.lines.any isCamerasLine then [] else [camerasLine enabled]) = [] := by
    split
    · rfl
    · rw [others, List.filter_cons_of_neg (by simp [entry_camerasLine, h])]
      rfl
  have hmap : others managed (fs.lines.map fun line ↦
      if isCamerasLine line then camerasLine enabled else line) = others managed fs.lines := by
    apply others_map
    intro l _
    by_cases hl : isCamerasLine l = true
    · rw [if_pos hl]
      rw [isCamerasLine_eq, Option.any_eq_true] at hl
      obtain ⟨⟨n, v⟩, he, hn⟩ := hl
      obtain ⟨rfl, -⟩ : n = addRemoveCameras ∧ single v = true := by simpa using hn
      exact .inr ⟨_, v, _, he, entry_camerasLine enabled, h⟩
    · exact .inl (if_neg hl)
  rw [lines_set, others_written (isLine_loop enabled fs), others, List.filter_append, ← others,
    ← others, hmap, happended, List.append_nil]

end Write

/-! ### Runs -/

/-- `board/common/overlay/etc/motioneye.conf`. -/
def shippedLines : List Bytes := [
  str "conf_path /data/etc",
  str "run_path /tmp",
  str "log_path /var/log",
  str "media_path /data/output",
  str "motion_binary /usr/bin/motion-mrdave",
  str "log_level info",
  str "listen 0.0.0.0",
  str "port 80",
  str "mount_check_interval 300",
  str "motion_check_interval 10",
  str "cleanup_interval 43200",
  str "thumbnailer_interval 60",
  str "remote_request_timeout 10",
  str "mjpg_client_timeout 10",
  str "mjpg_client_idle_timeout 10",
  str "smb_shares true",
  str "smb_mount_root /data/media",
  str "wpa_supplicant_conf /data/etc/wpa_supplicant.conf",
  str "local_time_file /data/etc/localtime",
  str "enable_reboot true",
  str "enable_update true",
  str "smtp_timeout 60",
  str "zip_timeout 500",
  str "add_remove_cameras true"]

/-- The files before the first write. -/
def shipped (prereleases : Bool) : Files := ⟨some (unlines shippedLines), prereleases⟩

/-- One call of one of the writers. -/
inductive Write
  | settings (s : Settings)
  | addRemoveCameras (enabled : Bool)

/-- The dictionary with all settings. -/
def complete (s : Settings) : Dict :=
  ⟨some s.port, some s.motionBinary, some s.motionKeepAlive, some s.debug, some s.prereleases⟩

/-- What a call does. -/
def write (fs : Files) : Write → Except Error Files
  | .settings s => setMotioneyeSettings (complete s) fs
  | .addRemoveCameras enabled => .ok (setMotioneyeAddRemoveCameras enabled fs)

/-- The settings that were written last. -/
def lastSettings (ws : List Write) : Option Settings :=
  (ws.filterMap fun | .settings s => some s | .addRemoveCameras _ => none).getLast?

/-- The choice for the cameras that was written last. -/
def lastCameras (ws : List Write) : Option Bool :=
  (ws.filterMap fun | .settings _ => none | .addRemoveCameras enabled => some enabled).getLast?

/-- A name that one of the writers manages. -/
def managed (name : Bytes) : Bool := name = addRemoveCameras || (Key.ofName name).isSome

/-- The file after the writes `ws`: of each managed name the writers recognise the last value
only, which is the one written last, and the other lines are the shipped ones. -/
structure Invariant (ws : List Write) (fs : Files) : Prop where
  tidy : ∀ k, Tidy single (values (Key.name k) fs.lines)
  camerasTidy : Tidy single (values addRemoveCameras fs.lines)
  port : ∀ v ∈ values (Key.name .port) fs.lines, toInt v ≠ none
  settings : ∀ s ∈ lastSettings ws, fs.prereleases = s.prereleases ∧
    ∀ k, (values (Key.name k) fs.lines).getLast? = some (s.text k)
  cameras : ∀ b ∈ lastCameras ws, (values addRemoveCameras fs.lines).getLast? = some (lower b)
  others : others managed fs.lines = others managed (shippedLines.map (· ++ [newline]))

-- The shipped lines are read back.
private theorem lines_shipped (prereleases : Bool) :
    (shipped prereleases).lines = shippedLines.map (· ++ [newline]) :=
  readlines_unlines (by decide)

-- The other shipped lines have their terminators already.
private theorem terminated_shipped :
    (others managed (shippedLines.map (· ++ [newline]))).map terminated =
      others managed (shippedLines.map (· ++ [newline])) := by
  have hid : ∀ l ∈ others managed (shippedLines.map (· ++ [newline])), terminated l = id l := by
    intro l hl
    obtain ⟨k, -, rfl⟩ := List.mem_map.mp (List.mem_of_mem_filter hl)
    rw [terminated, if_pos List.getLast?_concat, id]
  rw [List.map_congr_left hid, List.map_id]

-- Both writers manage their own keys.
private theorem managed_name (k : Key) : managed k.name = true := by
  simp [managed, ofName_eq_some.mpr rfl]

private theorem managed_cameras : managed addRemoveCameras = true := by
  simp [managed]

private theorem invariant_shipped (prereleases : Bool) : Invariant [] (shipped prereleases) := by
  have hlines := lines_shipped prereleases
  refine ⟨?_, ?_, ?_, nofun, nofun, by rw [hlines]⟩
  · intro k
    rw [hlines]
    show ∀ v ∈ (values k.name (shippedLines.map (· ++ [newline]))).dropLast, single v = false
    cases k <;> decide
  · rw [hlines]
    show ∀ v ∈ (values addRemoveCameras (shippedLines.map (· ++ [newline]))).dropLast,
      single v = false
    decide
  · rw [hlines]
    decide

section Step

variable {ws : List Write} {fs : Files}

private theorem invariant_settings {s : Settings} (h : Invariant ws fs)
    (hs : Readable s.motionBinary) :
    ∃ fs', write fs (.settings s) = .ok fs' ∧ Invariant (ws ++ [.settings s]) fs' := by
  have hcount : ∀ k, count k fs.lines ≤ 1 := fun k ↦ (h.tidy k).countP_le_one
  obtain ⟨fs', hrun, hrewritten, hpre⟩ :=
    setMotioneyeSettings_of_count (d := complete s) nofun hs hcount
  refine ⟨fs', hrun, ?_, ?_, ?_, ?_, ?_, ?_⟩
  · intro k
    rw [hrewritten.key k]
    exact (h.tidy k).overwrite
  · rw [hrewritten.other addRemoveCameras addRemoveCameras_ne]
    exact h.camerasTidy
  · exact port_rewritten h.port hrewritten
  · intro s' hs'
    obtain rfl : s = s' := by simpa [lastSettings] using hs'
    refine ⟨hpre, fun k ↦ ?_⟩
    rw [hrewritten.key k]
    exact (h.tidy k).getLast?_overwrite
  · intro b hb
    rw [hrewritten.other addRemoveCameras addRemoveCameras_ne]
    exact h.cameras b (by simpa [lastCameras] using hb)
  · rw [hrewritten.kept managed managed_name, h.others, terminated_shipped]

private theorem invariant_cameras (enabled : Bool) (h : Invariant ws fs) :
    Invariant (ws ++ [.addRemoveCameras enabled]) (setMotioneyeAddRemoveCameras enabled fs) := by
  have hvalues : ∀ k : Key, values k.name (setMotioneyeAddRemoveCameras enabled fs).lines =
      values k.name fs.lines := fun k ↦ values_of_ne enabled fs (addRemoveCameras_ne k)
  refine ⟨?_, ?_, ?_, ?_, ?_, ?_⟩
  · intro k
    rw [hvalues k]
    exact h.tidy k
  · rw [values_addRemoveCameras]
    exact h.camerasTidy.overwrite
  · rw [hvalues .port]
    exact h.port
  · intro s hs
    obtain ⟨hpre, hlast⟩ := h.settings s (by simpa [lastSettings] using hs)
    exact ⟨hpre, fun k ↦ by rw [hvalues k, hlast k]⟩
  · intro b hb
    obtain rfl : enabled = b := by simpa [lastCameras] using hb
    rw [values_addRemoveCameras]
    exact h.camerasTidy.getLast?_overwrite
  · rw [others_addRemoveCameras enabled fs managed_cameras, h.others, terminated_shipped]

end Step

/-- After any sequence of writes, none of which fails, the getter returns the settings written
last, the last value for the cameras is the one written last, and the lines that neither writer
manages are the shipped ones in their order. -/
theorem writes_kept (prereleases : Bool) (ws : List Write)
    (hws : ∀ s, .settings s ∈ ws → Readable s.motionBinary) :
    ∃ fs, ws.foldlM write (shipped prereleases) = .ok fs ∧
      (∀ s ∈ lastSettings ws, getMotioneyeSettings fs = .ok s) ∧
      (∀ b ∈ lastCameras ws, (values addRemoveCameras fs.lines).getLast? = some (lower b)) ∧
      others managed fs.lines = others managed (shipped prereleases).lines := by
  have htotal : ∃ fs, ws.foldlM write (shipped prereleases) = .ok fs ∧ Invariant ws fs := by
    apply foldlM_total Invariant (invariant_shipped prereleases)
    intro pre w post fs hsplit hinv
    cases w with
    | settings s => exact invariant_settings hinv (hws s (by simp [hsplit]))
    | addRemoveCameras enabled => exact ⟨_, rfl, invariant_cameras enabled hinv⟩
  obtain ⟨fs, hrun, hinv⟩ := htotal
  refine ⟨fs, hrun, ?_, hinv.cameras, hinv.others.trans (by rw [lines_shipped])⟩
  intro s hs
  obtain ⟨hpre, hlast⟩ := hinv.settings s hs
  have hread := (read_eq_iff hlast (s := initial fs.prereleases) hpre).mpr (assign_text s)
  exact getMotioneyeSettings_eq_ok.mpr ⟨hinv.port, hread.symm⟩

/-- A path with a blank, a choice for the cameras and another path. -/
theorem writes_kept_paths :
    ∃ fs, [Write.settings ⟨8080, str "/opt/my motion", true, true, false⟩, .addRemoveCameras false,
        .settings ⟨80, str "/usr/bin/motion", false, false, true⟩].foldlM write (shipped false) =
        .ok fs ∧
      getMotioneyeSettings fs = .ok ⟨80, str "/usr/bin/motion", false, false, true⟩ ∧
      (values addRemoveCameras fs.lines).getLast? = some (str "false") := by
  obtain ⟨fs, hrun, hsettings, hcameras, -⟩ := writes_kept false
    [.settings ⟨8080, str "/opt/my motion", true, true, false⟩, .addRemoveCameras false,
      .settings ⟨80, str "/usr/bin/motion", false, false, true⟩]
    (by
      intro s hs
      simp only [List.mem_cons, Write.settings.injEq, reduceCtorEq, List.not_mem_nil, or_false,
        false_or] at hs
      rcases hs with rfl | rfl
      · exact ⟨by decide, by decide, by decide⟩
      · exact ⟨by decide, by decide, by decide⟩)
  exact ⟨fs, hrun, hsettings _ rfl, hcameras _ rfl⟩

end MotionPie.Board.Raspberrypi
