import Mathlib
import MotionPie.Package.Motioneye.Update

/-!
# What an update leaves behind

Up to the unmount nothing is written to the boot partition; from `dd` on nothing is taken
back. The triples below say for each command what it leaves when it succeeds and when it
fails, and the outcome of a run is put together from them.
-/

namespace MotionPie.Package.Motioneye

open Base Std.Do

set_option mvcgen.warning false

/-! ### config.txt -/

/-- Reading back what has been written gives the same lines. -/
theorem configLines_unlines {ls : List Bytes}
    (h : ∀ l ∈ ls, newline ∉ l ∧ strip l = l ∧ l ≠ []) : configLines (unlines ls) = ls := by
  rw [configLines, readlines_unlines fun l hl ↦ (h l hl).1, List.filter_map, List.map_map]
  have hstrip : ∀ l ∈ ls, strip (l ++ [newline]) = l := fun l hl ↦ by
    rw [strip_append_newline, (h l hl).2.1]
  rw [List.filter_eq_self.mpr fun l hl ↦ ?_]
  · exact (List.map_congr_left hstrip).trans (List.map_id _)
  · simpa [hstrip l hl] using (h l hl).2.2

/-- The lines of `config.txt` can be written as they are. -/
theorem mem_configLines {x l : Bytes} (hl : l ∈ configLines x) :
    newline ∉ l ∧ strip l = l ∧ l ≠ [] := by
  obtain ⟨k, hk, rfl⟩ := List.mem_map.mp hl
  obtain ⟨hline, hne⟩ := List.mem_filter.mp hk
  exact ⟨newline_notMem_strip (mem_readlines hline), strip_strip k, by simpa using hne⟩

/-- What the next boot reads: the user's lines, then the line for the updater. -/
theorem configLines_rewritten (x : Bytes) :
    configLines (unlines (configLines x ++ [initramfsLine])) = configLines x ++ [initramfsLine] := by
  refine configLines_unlines fun l hl ↦ ?_
  rcases List.mem_append.mp hl with hl | hl
  · exact mem_configLines hl
  · rw [List.mem_singleton.mp hl]
    decide +kernel

/-! ### What a state may be, compared with the first one -/

section States

variable (fs : FileSystem) (s₀ s : System)

/-- The partition holds all of the new image but its `config.txt`, and the root image is
there for the updater. -/
def HasNewImage : Prop :=
  ∃ image, s.bootImg = some image ∧ s.rootImg.isSome ∧ image.length ≤ s₀.boot.length ∧
    ∀ name, name ≠ "config.txt" →
      fs.files s.boot name = fs.files (overwrite image.length image s₀.boot) name

/-- The partition holds the new image with the user's configuration, and the next boot
starts the updater. -/
def IsUpdated : Prop :=
  HasNewImage fs s₀ s ∧ ∃ user x, fs.files s₀.boot "config.txt" = some user ∧
    fs.files s.boot "config.txt" = some x ∧ configLines x = configLines user ++ [initramfsLine]

/-- What a run leaves that stops at the given step. -/
def Leaves (e : Failure) (s : System) : Prop :=
  match e with
  | .makedirs | .wget | .gunzip | .partitionTable | .extractBoot | .extractRoot | .backup
  | .unmount => s.boot = s₀.boot
  | .install => ∃ image n, s.bootImg = some image ∧ s.boot = overwrite n image s₀.boot
  | .mount | .restore | .read | .rewrite => HasNewImage fs s₀ s
  | .hardReboot => IsUpdated fs s₀ s

/-- The images are there, and the partition is as before. -/
structure Downloaded : Prop where
  boot : s.boot = s₀.boot
  images : s.bootImg.isSome ∧ s.rootImg.isSome

/-- The user's configuration is there, too. -/
structure BackedUp : Prop extends Downloaded s₀ s where
  config : ∃ user, fs.files s₀.boot "config.txt" = some user ∧ s.tmpConfig = some user

/-- Whatever the device holds is the new image up to `config.txt`. -/
structure Installed : Prop where
  config : ∃ user, fs.files s₀.boot "config.txt" = some user ∧ s.tmpConfig = some user
  newImage : ∀ boot ∈ s.unsynced ++ [s.boot], HasNewImage fs s₀ { s with boot }

end States

/-! ### The commands -/

/-- A triple says what one run from any state does. -/
theorem triple_iff {ε σ α : Type} {x : EStateM ε σ α} {P : σ → Prop} {Q : α → σ → Prop}
    {E : ε → σ → Prop} :
    (⦃fun s ↦ ⌜P s⌝⦄ x ⦃post⟨fun a s ↦ ⌜Q a s⌝, fun e s ↦ ⌜E e s⌝⟩⦄) ↔
      ∀ s, P s → match x.run s with
        | .ok a s' => Q a s'
        | .error e s' => E e s' := by
  refine forall_congr' fun s ↦ forall_congr' fun _ ↦ ?_
  simp only [WP.wp, PredTrans.apply]
  cases x.run s <;> rfl

/-- The triple of a command, from what it does when it succeeds and when it fails. -/
theorem call_spec {e : Failure} {command : System → Bool × System} {P Q : System → Prop}
    {E : Failure → System → Prop} (hok : ∀ s s', P s → command s = (true, s') → Q s')
    (herr : ∀ s s', P s → command s = (false, s') →
      E e { s' with errors := s'.errors ++ [e.text] }) :
    ⦃fun s ↦ ⌜P s⌝⦄ call e command ⦃post⟨fun _ s ↦ ⌜Q s⌝, fun e s ↦ ⌜E e s⌝⟩⦄ := by
  apply triple_iff.mpr
  intro s hs
  simp only [EStateM.run, call]
  rcases hc : command s with ⟨_ | _, s'⟩
  · exact herr s s' hs hc
  · exact hok s s' hs hc

section Download

variable {fs : FileSystem} {s₀ s s' : System} {c : Commands}

/-- The partition is as before, and the download directory satisfies `P`. -/
private def Fetching (s₀ : System) (P : DownloadDir → Prop) (s : System) : Prop :=
  s.boot = s₀.boot ∧ ∃ d, s.downloadDir = some d ∧ P d

private theorem Fetching.edit {P Q : DownloadDir → Prop} {f : DownloadDir → DownloadDir}
    (hs : Fetching s₀ P s) (hf : ∀ d, P d → Q (f d)) : Fetching s₀ Q (s.edit f) := by
  obtain ⟨hboot, d, hd, hP⟩ := hs
  exact ⟨hboot, f d, by simp [System.edit, hd], hf d hP⟩

private theorem ddExtract_boot {set : Bytes → DownloadDir → DownloadDir} {sectors : Int × Int}
    {fault : Option Nat} : (ddExtract set sectors fault s).2.boot = s.boot := by
  unfold ddExtract
  split
  · split <;> rfl
  · rfl

private theorem ddExtract_spec {set : Bytes → DownloadDir → DownloadDir} {sectors : Int × Int}
    {fault : Option Nat} {P Q : DownloadDir → Prop} (hs : Fetching s₀ P s)
    (hc : ddExtract set sectors fault s = (true, s')) (hset : ∀ x d, P d → Q (set x d)) :
    Fetching s₀ Q s' := by
  unfold ddExtract at hc
  split at hc
  · next x hx =>
    split at hc
    · cases hc
      exact hs.edit (hset x)
    · cases hc
  · cases hc

/-- A download fetches both images, and leaves the boot partition alone in any case. -/
theorem download_spec : ⦃fun s ↦ ⌜s.boot = s₀.boot⌝⦄ download c
    ⦃post⟨fun _ s ↦ ⌜Downloaded s₀ s⌝, fun e s ↦ ⌜Leaves fs s₀ e s⌝⟩⦄ := by
  unfold download
  refine Triple.bind _ _ (call_spec (Q := fun s ↦ s.boot = s₀.boot) ?_ ?_) fun _ ↦ ?_
  · intro s s' hs hc
    obtain ⟨-, rfl⟩ := Prod.mk.inj hc
    split <;> exact hs
  · intro s s' _ hc
    exact absurd (Prod.mk.inj hc).1 (by decide)
  refine Triple.bind _ _ (call_spec (Q := Fetching s₀ fun _ ↦ True) ?_ ?_) fun _ ↦ ?_
  · intro s s' hs hc
    unfold makedirs at hc
    split at hc
    · cases hc
      exact ⟨hs, _, rfl, trivial⟩
    · cases hc
  · intro s s' hs hc
    unfold makedirs at hc
    split at hc
    · cases hc
    · cases hc
      exact hs
  refine Triple.bind _ _ (call_spec (Q := Fetching s₀ fun _ ↦ True) ?_ ?_) fun _ ↦ ?_
  · rintro s s' hs hc
    obtain ⟨-, rfl⟩ := Prod.mk.inj hc
    exact hs.edit fun _ _ ↦ trivial
  · rintro s s' hs hc
    obtain ⟨-, rfl⟩ := Prod.mk.inj hc
    exact hs.1
  refine Triple.bind _ _ (call_spec (Q := Fetching s₀ fun _ ↦ True) ?_ ?_) fun _ ↦ ?_
  · intro s s' hs hc
    unfold gunzip at hc
    split at hc
    · cases hc
      exact hs.edit fun _ _ ↦ trivial
    · cases hc
  · intro s s' hs hc
    unfold gunzip at hc
    split at hc
    · cases hc
    · cases hc
      exact hs.1
  split
  · exact triple_iff.mpr fun s hs ↦ hs.1
  · next boot root _ =>
    refine Triple.bind _ _ (call_spec (Q := Fetching s₀ fun d ↦ d.bootImg.isSome) ?_ ?_) fun _ ↦ ?_
    · exact fun s s' hs hc ↦ ddExtract_spec hs hc fun _ _ _ ↦ rfl
    · intro s s' hs hc
      exact (congrArg (·.2.boot) hc).symm.trans (ddExtract_boot.trans hs.1)
    refine call_spec ?_ ?_
    · intro s s' hs hc
      have hboth : Fetching s₀ (fun d ↦ d.bootImg.isSome ∧ d.rootImg.isSome) s' :=
        ddExtract_spec hs hc fun _ _ hd ↦ ⟨hd, rfl⟩
      obtain ⟨hboot, d, hd, hboth⟩ := hboth
      exact ⟨hboot, by simp [System.bootImg, System.rootImg, hd, hboth.1, hboth.2]⟩
    · intro s s' hs hc
      exact (congrArg (·.2.boot) hc).symm.trans (ddExtract_boot.trans hs.1)

end Download

section PerformUpdate

variable {fs : FileSystem} {s₀ s s' : System} {c : Commands}

private theorem Installed.hasNewImage (hs : Installed fs s₀ s) : HasNewImage fs s₀ s :=
  hs.newImage s.boot (List.mem_append_right _ (List.mem_singleton_self _))

/-- Writing `config.txt` leaves the rest of the new image alone. -/
private theorem Installed.setConfig (hs : Installed fs s₀ s) (x : Bytes) :
    Installed fs s₀ (s.setConfig fs x) := by
  refine ⟨hs.config, fun boot hboot ↦ ?_⟩
  rcases List.mem_append.mp hboot with hold | hnew
  · exact hs.newImage boot hold
  · obtain ⟨image, himage, hroot, hfits, hnames⟩ := hs.hasNewImage
    refine ⟨image, himage, hroot, hfits, fun name hname ↦ ?_⟩
    rw [List.mem_singleton.mp hnew, ← hnames name hname]
    exact (congrFun (fs.files_write s.boot x) name).trans (Function.update_of_ne hname _ _)

private theorem setConfig_config (s : System) (x : Bytes) :
    fs.files (s.setConfig fs x).boot "config.txt" = some x :=
  (congrFun (fs.files_write s.boot x) "config.txt").trans (Function.update_self _ _ _)

/-- The backup reads the configuration of the old partition. -/
theorem cpBackup_spec : ⦃fun s ↦ ⌜Downloaded s₀ s⌝⦄ call .backup (cpBackup fs c.backup)
    ⦃post⟨fun _ s ↦ ⌜BackedUp fs s₀ s⌝, fun e s ↦ ⌜Leaves fs s₀ e s⌝⟩⦄ := by
  refine call_spec (fun s s' hs hc ↦ ?_) fun s s' hs hc ↦ ?_ <;> unfold cpBackup at hc
  · split at hc <;> cases hc
    next x hx _ =>
    unfold System.config at hx
    split at hx
    · exact ⟨⟨hs.boot, hs.images⟩, x, hs.boot ▸ hx, rfl⟩
    · cases hx
  · split at hc <;> cases hc <;> exact hs.boot

/-- The unmount changes nothing that matters. -/
theorem umount_spec : ⦃fun s ↦ ⌜BackedUp fs s₀ s⌝⦄ call .unmount (umount c.umount)
    ⦃post⟨fun _ s ↦ ⌜BackedUp fs s₀ s⌝, fun e s ↦ ⌜Leaves fs s₀ e s⌝⟩⦄ := by
  refine call_spec (fun s s' hs hc ↦ ?_) fun s s' hs hc ↦ ?_ <;> unfold umount at hc
  · split at hc <;> cases hc
    exact ⟨⟨hs.boot, hs.images⟩, hs.config⟩
  · split at hc <;> cases hc
    exact hs.boot

/-- `dd` installs the image, or the first part of it. -/
theorem ddInstall_spec : ⦃fun s ↦ ⌜BackedUp fs s₀ s⌝⦄ call .install (ddInstall c.install)
    ⦃post⟨fun _ s ↦ ⌜Installed fs s₀ s⌝, fun e s ↦ ⌜Leaves fs s₀ e s⌝⟩⦄ := by
  refine call_spec (fun s s' hs hc ↦ ?_) fun s s' hs hc ↦ ?_ <;> unfold ddInstall at hc
  · split at hc
    · cases hc
    · next image himage =>
      simp only [Prod.mk.injEq, Bool.and_eq_true, Option.isNone_iff_eq_none, decide_eq_true_eq] at hc
      obtain ⟨⟨hfault, hfits⟩, rfl⟩ := hc
      refine ⟨hs.config, fun boot hboot ↦ ?_⟩
      rw [List.nil_append, List.mem_singleton] at hboot
      refine ⟨image, himage, hs.images.2, hs.boot ▸ hfits, fun name _ ↦ ?_⟩
      rw [hboot, hfault, Option.getD_none, min_eq_left hfits, min_self, hs.boot]
  · split at hc
    · next hnone =>
      have himage := hs.images.1
      rw [hnone] at himage
      cases himage
    · next image himage =>
      obtain ⟨-, rfl⟩ := Prod.mk.inj hc
      exact ⟨image, _, himage, congrArg (overwrite _ image) hs.boot⟩

/-- The mount changes nothing that matters. -/
theorem mount_spec : ⦃fun s ↦ ⌜Installed fs s₀ s⌝⦄ call .mount (mount c.mount)
    ⦃post⟨fun _ s ↦ ⌜Installed fs s₀ s⌝, fun e s ↦ ⌜Leaves fs s₀ e s⌝⟩⦄ := by
  refine call_spec (fun s s' hs hc ↦ ?_) fun s s' hs hc ↦ ?_ <;> unfold mount at hc
  · split at hc <;> cases hc
    exact ⟨hs.config, hs.newImage⟩
  · split at hc <;> cases hc
    exact hs.hasNewImage

/-- The user's configuration is back. -/
theorem cpRestore_spec : ⦃fun s ↦ ⌜Installed fs s₀ s⌝⦄ call .restore (cpRestore fs c.restore)
    ⦃post⟨fun _ s ↦ ⌜Installed fs s₀ s ∧
        fs.files s.boot "config.txt" = fs.files s₀.boot "config.txt"⌝,
      fun e s ↦ ⌜Leaves fs s₀ e s⌝⟩⦄ := by
  refine call_spec (fun s s' hs hc ↦ ?_) fun s s' hs hc ↦ ?_ <;> unfold cpRestore at hc
  · split at hc <;> cases hc
    next x hx _ =>
    obtain ⟨user, huser, htmp⟩ := hs.config
    obtain rfl := Option.some.inj (hx.symm.trans htmp)
    exact ⟨hs.setConfig x, (setConfig_config s x).trans huser.symm⟩
  · split at hc <;> cases hc
    · exact hs.hasNewImage
    · exact (hs.setConfig _).hasNewImage
    · exact hs.hasNewImage

/-- The lines that are read are the user's. -/
theorem readConfig_spec : ⦃fun s ↦ ⌜Installed fs s₀ s ∧
      fs.files s.boot "config.txt" = fs.files s₀.boot "config.txt"⌝⦄ readConfig fs c.read
    ⦃post⟨fun lines s ↦ ⌜Installed fs s₀ s ∧
        ∃ user, fs.files s₀.boot "config.txt" = some user ∧ lines = configLines user⌝,
      fun e s ↦ ⌜Leaves fs s₀ e s⌝⟩⦄ := by
  apply triple_iff.mpr
  rintro s ⟨hs, hsame⟩
  simp only [EStateM.run, readConfig]
  cases hx : s.config fs with
  | none => exact hs.hasNewImage
  | some x =>
    unfold System.config at hx
    cases c.read with
    | false => exact hs.hasNewImage
    | true =>
      split at hx
      · exact ⟨hs, x, hsame ▸ hx, rfl⟩
      · cases hx

/-- The line for the updater is there. -/
theorem writeConfig_spec {lines : List Bytes} : ⦃fun s ↦ ⌜Installed fs s₀ s ∧
      ∃ user, fs.files s₀.boot "config.txt" = some user ∧ lines = configLines user⌝⦄
    call .rewrite (writeConfig fs (lines ++ [initramfsLine]) c.rewrite)
    ⦃post⟨fun _ s ↦ ⌜Installed fs s₀ s ∧ IsUpdated fs s₀ s⌝,
      fun e s ↦ ⌜Leaves fs s₀ e s⌝⟩⦄ := by
  refine call_spec (fun s s' hs hc ↦ ?_) fun s s' hs hc ↦ ?_ <;> unfold writeConfig at hc
  · obtain ⟨hs, user, huser, rfl⟩ := hs
    split at hc <;> cases hc
    have hins := (hs.setConfig []).setConfig (unlines (configLines user ++ [initramfsLine]))
    exact ⟨hins, hins.hasNewImage, user, _, huser, setConfig_config _ _, configLines_rewritten user⟩
  · split at hc <;> cases hc
    · exact hs.1.hasNewImage
    · exact ((hs.1.setConfig _).setConfig _).hasNewImage

/-- A hard reboot keeps the new image. -/
theorem reboot_spec : ⦃fun s ↦ ⌜Installed fs s₀ s ∧ IsUpdated fs s₀ s⌝⦄ reboot c.reboot
    ⦃post⟨fun _ s ↦ ⌜HasNewImage fs s₀ s ∧ (c.reboot = .ok → IsUpdated fs s₀ s)⌝,
      fun e s ↦ ⌜Leaves fs s₀ e s⌝⟩⦄ := by
  apply triple_iff.mpr
  rintro s ⟨hs, hup⟩
  cases c.reboot with
  | ok => exact ⟨hup.1, fun _ ↦ hup⟩
  | hard synced =>
    refine ⟨hs.newImage _ ?_, nofun⟩
    rw [List.getD_eq_getElem?_getD]
    cases hx : (s.unsynced ++ [s.boot])[synced]? with
    | none => exact List.mem_append_right _ (List.mem_singleton_self _)
    | some x => exact List.mem_of_getElem? hx
  | denied => exact hup

end PerformUpdate

private theorem performUpdate_spec {fs : FileSystem} {c : Commands} {s₀ : System} :
    ⦃fun s ↦ ⌜s.boot = s₀.boot⌝⦄ performUpdate fs c
    ⦃post⟨fun _ s ↦ ⌜HasNewImage fs s₀ s ∧ (c.reboot = .ok → IsUpdated fs s₀ s)⌝,
      fun e s ↦ ⌜Leaves fs s₀ e s⌝⟩⦄ := by
  unfold performUpdate
  refine Triple.bind _ _ download_spec fun _ ↦ ?_
  refine Triple.bind _ _ cpBackup_spec fun _ ↦ ?_
  refine Triple.bind _ _ umount_spec fun _ ↦ ?_
  refine Triple.bind _ _ ddInstall_spec fun _ ↦ ?_
  refine Triple.bind _ _ mount_spec fun _ ↦ ?_
  refine Triple.bind _ _ cpRestore_spec fun _ ↦ ?_
  refine Triple.bind _ _ readConfig_spec fun lines ↦ ?_
  refine Triple.bind _ _ writeConfig_spec fun _ ↦ ?_
  exact reboot_spec

/-- Where a run of `perform_update` stops decides what is on the boot partition: its old
content before `dd`, the start of the new image over it when `dd` fails, the new image
apart from `config.txt` after that, and the updated system at the end. -/
theorem performUpdate_leaves (fs : FileSystem) (c : Commands) (s : System) :
    match (performUpdate fs c).run s with
    | .ok _ s' => HasNewImage fs s s' ∧ (c.reboot = .ok → IsUpdated fs s s')
    | .error e s' => Leaves fs s e s' := by
  have h := triple_iff.mp (@performUpdate_spec fs c s) s rfl
  cases hrun : (performUpdate fs c).run s with
  | ok _ s' =>
    rw [hrun] at h
    exact h
  | error e s' =>
    rw [hrun] at h
    exact h

/-! ### New images that boot the old root -/

/-- The number of bytes of `config.txt` in a partition of `smallFs`. -/
private def configLength (boot : Bytes) : Nat := (boot.takeWhile (· = 1)).length

/-- A partition with a `config.txt`, whose length stands before it in unary, and a kernel. -/
def smallFs : FileSystem where
  files boot name :=
    let body := boot.drop (configLength boot + 1)
    if name = "config.txt" then some (body.take (configLength boot))
    else if name = "kernel.img" then some (body.drop (configLength boot))
    else none
  write boot x :=
    List.replicate x.length 1 ++
      0 :: (x ++ (boot.drop (configLength boot + 1)).drop (configLength boot))
  files_write boot x := by
    have hlen : ∀ t : Bytes, configLength (List.replicate x.length 1 ++ 0 :: t) = x.length := by
      intro t
      simp [configLength]
    have hdrop : ∀ t : Bytes,
        (List.replicate x.length 1 ++ 0 :: t).drop (x.length + 1) = t := by
      intro t
      rw [List.drop_append]
      simp
    funext name
    simp only [hlen, hdrop]
    by_cases hname : name = "config.txt"
    · subst hname
      simp
    · simp [hname]

/-- Commands that all succeed, for an image whose first partition has an empty `config.txt`
and the kernel `[7]`. -/
def smallCommands : Commands where
  rmtree := true
  makedirs := true
  wget := ([31], true)
  gunzip := some (List.replicate 2048 0 ++ [0, 7])
  fdisk := some (unlines [
    str "/data/.firmware_update/firmware1 * 4 7 2 c W95 FAT32",
    str "/data/.firmware_update/firmware2 8 11 2 83 Linux"])
  extractBoot := none
  extractRoot := none
  backup := none
  umount := true
  install := none
  mount := true
  restore := none
  read := true
  rewrite := none
  reboot := .ok

/-- A system whose `config.txt` is `a` and whose kernel is `[5]`. -/
def smallSystem : System := ⟨[1, 0, 97, 5], [], true, none, none, []⟩

/-- A system with the `config.txt` of the new image is not an updated one. -/
private theorem not_isUpdated {s : System} (h : s.boot = [0, 7, 97, 5]) :
    ¬ IsUpdated smallFs smallSystem s := by
  rintro ⟨-, user, x, -, hx, hlines⟩
  rw [h] at hx
  obtain rfl : x = [] := (Option.some.inj hx).symm
  have hlen := congrArg List.length hlines
  simp [configLines, readlines] at hlen

/-- Where a run stops, and what is on the boot partition. -/
private def bootAfter : EStateM.Result Failure System Unit → Option Failure × Bytes
  | .ok _ s => (none, s.boot)
  | .error e s => (some e, s.boot)

/-- When the mount fails, or a hard reboot comes before `config.txt` is on the device, the
partition has neither its old content nor an updated system. -/
theorem performUpdate_boots_old_root :
    (∃ s', (performUpdate smallFs { smallCommands with mount := false }).run smallSystem =
        .error .mount s' ∧ s'.boot ≠ smallSystem.boot ∧ ¬ IsUpdated smallFs smallSystem s') ∧
      ∃ s', (performUpdate smallFs { smallCommands with reboot := .hard 0 }).run smallSystem =
        .ok () s' ∧ s'.boot ≠ smallSystem.boot ∧ ¬ IsUpdated smallFs smallSystem s' := by
  constructor
  · have hrun : bootAfter ((performUpdate smallFs { smallCommands with mount := false }).run
        smallSystem) = (some .mount, [0, 7, 97, 5]) := by decide +kernel
    unfold bootAfter at hrun
    split at hrun
    · cases hrun
    · next e s' hs' =>
      obtain ⟨he, hboot⟩ := Prod.mk.inj hrun
      obtain rfl := Option.some.inj he
      exact ⟨s', hs', by simp [hboot, smallSystem], not_isUpdated hboot⟩
  · have hrun : bootAfter ((performUpdate smallFs { smallCommands with reboot := .hard 0 }).run
        smallSystem) = (none, [0, 7, 97, 5]) := by decide +kernel
    unfold bootAfter at hrun
    split at hrun
    · next s' hs' =>
      obtain ⟨-, hboot⟩ := Prod.mk.inj hrun
      exact ⟨s', hs', by simp [hboot, smallSystem], not_isUpdated hboot⟩
    · cases hrun

end MotionPie.Package.Motioneye
