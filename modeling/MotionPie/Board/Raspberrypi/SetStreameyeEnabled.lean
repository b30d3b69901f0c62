import MotionPie.Base.Directory
import MotionPie.Board.Raspberrypi.AddRemoveCameras
import MotionPie.Board.Raspberrypi.StreameyeConf

/-!
# Switching Fast Network Camera on and off

`_set_streameye_enabled` of `board/raspberrypi/motioneye-modules/streameyectl.py`. The camera files
are set aside as backups while one camera that streams from this host takes their place. Switching
off brings every backup back and enables every camera. The other files of the directory and what is
done to `motion.conf` are left out.
-/

namespace MotionPie.Board.Raspberrypi

open Base

/-- `thread-N.conf` and `thread-N.conf.bak`. -/
inductive ThreadFile
  | conf (n : Nat)
  | bak (n : Nat)
  deriving DecidableEq

/-- The number, for `re.match('^thread-\d+.conf$', name)`. -/
def ThreadFile.confNumber : ThreadFile → Option Nat
  | .conf n => some n
  | .bak _ => none

/-- The number, for `re.match('^thread-\d+.conf.bak$', name)`. -/
def ThreadFile.bakNumber : ThreadFile → Option Nat
  | .conf _ => none
  | .bak n => some n

/-- The configuration of a camera: `@proto`, `@enabled` and the other entries. -/
structure Camera (σ : Type) where
  proto : Option Bytes
  enabled : Option Bool
  rest : σ
  deriving DecidableEq

/-- `camera_config['@enabled'] = True`. -/
def Camera.enable {σ : Type} (c : Camera σ) : Camera σ := { c with enabled := some true }

/-- The directory `settings.CONF_PATH`. -/
abbrev ConfPath (σ : Type) := Directory ThreadFile (Camera σ)

/-- The argument of `config.add_camera`. -/
structure DeviceDetails where
  proto : Bytes
  host : Bytes
  port : Int
  username : Bytes
  password : Bytes
  scheme : Bytes
  path : Bytes

/-- What is used of motionEye's `config`. -/
structure Config (σ : Type) where
  getCameraIds : ConfPath σ → List Nat
  getCamera : Nat → ConfPath σ → Camera σ
  addCamera : DeviceDetails → ConfPath σ → (Nat × Camera σ) × ConfPath σ
  remCamera : Nat → ConfPath σ → ConfPath σ
  setCamera : Nat → Camera σ → ConfPath σ → ConfPath σ

/-- The state that the function works on. -/
structure StreameyeState (σ : Type) where
  confPath : ConfPath σ
  files : Package.Motioneye.Extractl.Files
  streameyeEnabled : Option Bool

variable {σ : Type}

/-- `device_details`, `streameyectl.py:198-214`. -/
def deviceDetails (settings : StreameyeSettings) (main : MainConfig) : DeviceDetails where
  proto := str "mjpeg"
  host := str "127.0.0.1"
  port := settings.sePort
  username := if settings.seAuthMode = str "basic" then main.normalUsername else []
  password := if settings.seAuthMode = str "basic" then main.normalPassword else []
  scheme := str "http"
  path := str "/"

/-- The loop of `streameyectl.py:190-192`. -/
def setAside (d : ConfPath σ) : ConfPath σ :=
  renameAll .conf .bak (d.keys.filterMap ThreadFile.confNumber) d

/-- The loop of `streameyectl.py:224-227`. -/
def removeMjpeg (config : Config σ) (d : ConfPath σ) : ConfPath σ :=
  (config.getCameraIds d).foldl (fun d id ↦
    if (config.getCamera id d).proto = some (str "mjpeg") then config.remCamera id d else d) d

/-- The loop of `streameyectl.py:230-232`. -/
def bringBack (d : ConfPath σ) : ConfPath σ :=
  renameAll .bak .conf (d.keys.filterMap ThreadFile.bakNumber) d

/-- The loop of `streameyectl.py:238-241`. -/
def enableAll (config : Config σ) (d : ConfPath σ) : ConfPath σ :=
  (config.getCameraIds d).foldl (fun d id ↦
    config.setCamera id (config.getCamera id d).enable d) d

/-- `_set_streameye_enabled`, `streameyectl.py:176-243`. -/
def setStreameyeEnabled (config : Config σ) (settings : StreameyeSettings) (main : MainConfig)
    (enabled : Bool) (s : StreameyeState σ) : StreameyeState σ :=
  if enabled then
    let ((id, camera), d) := config.addCamera (deviceDetails settings main) (setAside s.confPath)
    { confPath := config.setCamera id camera d
      files := setMotioneyeAddRemoveCameras false s.files
      streameyeEnabled := some true }
  else
    { confPath := enableAll config (bringBack (removeMjpeg config s.confPath))
      files := setMotioneyeAddRemoveCameras true s.files
      streameyeEnabled := some false }

/-- What is relied on: the listing is that of the camera files, `get_camera` reads one of them,
`add_camera` creates one under a fresh number, `rem_camera` deletes its own and `set_camera` stores
what it is given. -/
structure Config.Lawful (config : Config σ) : Prop where
  ids_nodup : ∀ d, (config.getCameraIds d).Nodup
  mem_ids : ∀ d id, id ∈ config.getCameraIds d ↔ .conf id ∈ d
  get : ∀ d id c, d.lookup (.conf id) = some c → config.getCamera id d = c
  add : ∀ details d, ∃ id c d', config.addCamera details d = ((id, c), d') ∧
    c.proto = some details.proto ∧ .conf id ∉ d ∧ .conf id ∈ d' ∧
    ∀ x, x ≠ .conf id → d'.lookup x = d.lookup x
  rem : ∀ d id x, (config.remCamera id d).lookup x = if x = .conf id then none else d.lookup x
  set : ∀ d id c, .conf id ∈ d →
    ∀ x, (config.setCamera id c d).lookup x = if x = .conf id then some c else d.lookup x

/-! ### The loops -/

variable {config : Config σ} {d : ConfPath σ}

/-- The number is read from the name of a camera file. -/
theorem confNumber_inv : Function.IsPartialInv ThreadFile.conf ThreadFile.confNumber := by
  intro n x
  cases x <;> simp [ThreadFile.confNumber, eq_comm]

/-- The number is read from the name of a backup. -/
theorem bakNumber_inv : Function.IsPartialInv ThreadFile.bak ThreadFile.bakNumber := by
  intro n x
  cases x <;> simp [ThreadFile.bakNumber, eq_comm]

/-- Every camera file becomes a backup. -/
theorem lookup_setAside (d : ConfPath σ) (n : Nat) :
    (setAside d).lookup (.conf n) = none ∧
      (setAside d).lookup (.bak n) = (d.lookup (.conf n)).or (d.lookup (.bak n)) :=
  lookup_renameAll_numbers confNumber_inv (fun _ _ ↦ ThreadFile.bak.inj) (fun _ _ h ↦ nomatch h) d n

/-- Every backup becomes a camera file. -/
theorem lookup_bringBack (d : ConfPath σ) (n : Nat) :
    (bringBack d).lookup (.bak n) = none ∧
      (bringBack d).lookup (.conf n) = (d.lookup (.bak n)).or (d.lookup (.conf n)) :=
  lookup_renameAll_numbers bakNumber_inv (fun _ _ ↦ ThreadFile.conf.inj) (fun _ _ h ↦ nomatch h) d n

-- A loop over the cameras that edits their files.
private theorem lookup_cameras (hconfig : config.Lawful) {step : ConfPath σ → Nat → ConfPath σ}
    {f : Camera σ → Option (Camera σ)}
    (hstep : ∀ d id c, d.lookup (.conf id) = some c →
      ∀ x, (step d id).lookup x = if x = .conf id then f c else d.lookup x) (n : Nat) :
    ((config.getCameraIds d).foldl step d).lookup (.conf n) = (d.lookup (.conf n)).bind f ∧
      ((config.getCameraIds d).foldl step d).lookup (.bak n) = d.lookup (.bak n) := by
  have hedit := lookup_foldl_edit (fun _ _ ↦ ThreadFile.conf.inj) hstep (hconfig.ids_nodup d)
    fun id ↦ (hconfig.mem_ids d id).mp
  constructor
  · rw [hedit]
    by_cases hn : .conf n ∈ d
    · have hlisted : ∃ id ∈ config.getCameraIds d, ThreadFile.conf n = .conf id :=
        ⟨n, (hconfig.mem_ids d n).mpr hn, rfl⟩
      rw [if_pos hlisted]
    · rw [AList.lookup_eq_none.mpr hn]
      simp
  · rw [hedit, if_neg fun ⟨id, _, h⟩ ↦ nomatch h]

/-- The cameras that are simple streams are removed. -/
theorem lookup_removeMjpeg (hconfig : config.Lawful) (d : ConfPath σ) (n : Nat) :
    (removeMjpeg config d).lookup (.conf n) =
        (d.lookup (.conf n)).bind
          (fun c ↦ if c.proto = some (str "mjpeg") then none else some c) ∧
      (removeMjpeg config d).lookup (.bak n) = d.lookup (.bak n) := by
  apply lookup_cameras hconfig
  intro d id c hc x
  rw [hconfig.get d id c hc]
  split
  · rw [hconfig.rem]
  · by_cases hx : x = .conf id
    · rw [if_pos hx, hx, hc]
    · rw [if_neg hx]

/-- All cameras are enabled. -/
theorem lookup_enableAll (hconfig : config.Lawful) (d : ConfPath σ) (n : Nat) :
    (enableAll config d).lookup (.conf n) = (d.lookup (.conf n)).map Camera.enable ∧
      (enableAll config d).lookup (.bak n) = d.lookup (.bak n) := by
  rw [Option.map_eq_bind]
  apply lookup_cameras hconfig
  intro d id c hc x
  have hmem : .conf id ∈ d := AList.lookup_isSome.mp (by rw [hc]; rfl)
  rw [hconfig.get d id c hc, hconfig.set d id _ hmem]
  rfl

/-! ### On and off again -/

/-- While it is on, the only camera is a simple stream, and the others are backups. -/
theorem lookup_on (hconfig : config.Lawful) (settings : StreameyeSettings) (main : MainConfig)
    (s : StreameyeState σ) :
    ∃ id c, c.proto = some (str "mjpeg") ∧ ∀ n,
      (setStreameyeEnabled config settings main true s).confPath.lookup (.conf n) =
          (if n = id then some c else none) ∧
        (setStreameyeEnabled config settings main true s).confPath.lookup (.bak n) =
          (s.confPath.lookup (.conf n)).or (s.confPath.lookup (.bak n)) := by
  obtain ⟨id, c, d, hadd, hproto, -, hmem, hother⟩ :=
    hconfig.add (deviceDetails settings main) (setAside s.confPath)
  refine ⟨id, c, hproto, fun n ↦ ?_⟩
  simp only [setStreameyeEnabled, if_true, hadd, hconfig.set d id c hmem]
  constructor
  · by_cases hn : n = id
    · simp [hn]
    · have hne : ThreadFile.conf n ≠ .conf id := fun h ↦ hn (ThreadFile.conf.inj h)
      rw [if_neg hne, if_neg hn, hother _ hne, (lookup_setAside _ n).1]
  · have hne : ThreadFile.bak n ≠ .conf id := fun h ↦ nomatch h
    rw [if_neg hne, hother _ hne, (lookup_setAside _ n).2]

/-- Switching on and off again leaves every camera with its configuration but enabled, and beside
them the enabled cameras of the backups that were there and whose number no camera had. -/
theorem lookup_on_off (hconfig : config.Lawful) (settings settings' : StreameyeSettings)
    (main main' : MainConfig) (s : StreameyeState σ) (n : Nat) :
    let s' := setStreameyeEnabled config settings' main' false
      (setStreameyeEnabled config settings main true s)
    s'.confPath.lookup (.conf n) =
        ((s.confPath.lookup (.conf n)).or (s.confPath.lookup (.bak n))).map Camera.enable ∧
      s'.confPath.lookup (.bak n) = none := by
  obtain ⟨id, c, hproto, hon⟩ := lookup_on hconfig settings main s
  generalize setStreameyeEnabled config settings main true s = on at hon
  have hremoved : (removeMjpeg config on.confPath).lookup (.conf n) = none := by
    rw [(lookup_removeMjpeg hconfig _ n).1, (hon n).1]
    split
    · simp [hproto]
    · rfl
  simp only [setStreameyeEnabled, Bool.false_eq_true, if_false]
  rw [(lookup_enableAll hconfig _ n).1, (lookup_enableAll hconfig _ n).2, (lookup_bringBack _ n).1,
    (lookup_bringBack _ n).2, hremoved, (lookup_removeMjpeg hconfig _ n).2, (hon n).2,
    Option.or_none]
  exact ⟨rfl, rfl⟩

/-! ### Cameras without other entries -/

/-- A number above those that are taken. -/
def nextId (ids : List Nat) : Nat := ids.foldr (fun n m ↦ max (n + 1) m) 1

/-- The number is not taken. -/
theorem lt_nextId {ids : List Nat} {n : Nat} (h : n ∈ ids) : n < nextId ids := by
  induction ids with
  | nil => cases h
  | cons m ids ih =>
    change n < max (m + 1) (nextId ids)
    rcases List.mem_cons.mp h with rfl | h
    · omega
    · have hlt := ih h
      omega

/-- The functions of `config` for cameras without other entries. -/
def plainConfig : Config Unit where
  getCameraIds d := d.keys.filterMap ThreadFile.confNumber
  getCamera id d := (d.lookup (.conf id)).getD ⟨none, none, ()⟩
  addCamera details d :=
    let id := nextId (d.keys.filterMap ThreadFile.confNumber)
    let camera := ⟨some details.proto, some true, ()⟩
    ((id, camera), d.insert (.conf id) camera)
  remCamera id d := d.erase (.conf id)
  setCamera id camera d := d.insert (.conf id) camera

/-- They do what is relied on. -/
theorem plainConfig_lawful : plainConfig.Lawful where
  ids_nodup _ := nodup_numbers confNumber_inv
  mem_ids _ id := mem_numbers confNumber_inv id
  get d id c h := by
    change (d.lookup (.conf id)).getD _ = c
    rw [h, Option.getD_some]
  add details d := by
    refine ⟨_, _, _, rfl, rfl, fun hmem ↦ ?_, AList.mem_insert _ |>.mpr (.inl rfl), fun x hx ↦ ?_⟩
    · exact absurd (lt_nextId ((mem_numbers confNumber_inv _).mpr hmem)) (lt_irrefl _)
    · exact AList.lookup_insert_ne hx
  rem d id x := lookup_erase d (.conf id) x
  set d id c _ x := lookup_insert d (.conf id) c x

/-- A camera that is disabled, and a backup from before. -/
def disabledCamera : StreameyeState Unit where
  confPath := (AList.insert (.conf 1) ⟨some (str "v4l2"), some false, ()⟩ ∅).insert (.bak 2)
    ⟨some (str "v4l2"), some true, ()⟩
  files := ⟨none, false⟩
  streameyeEnabled := some false

/-- Fast Network Camera on its default port, switched on and off again. -/
def onOff (s : StreameyeState Unit) : StreameyeState Unit :=
  setStreameyeEnabled plainConfig ⟨str "disabled", 8081⟩ ⟨[], []⟩ false
    (setStreameyeEnabled plainConfig ⟨str "disabled", 8081⟩ ⟨[], []⟩ true s)

/-- The camera that was disabled, after Fast Network Camera has been on. -/
theorem lookup_on_off_disabled :
    (onOff disabledCamera).confPath.lookup (.conf 1) =
        some ⟨some (str "v4l2"), some true, ()⟩ ∧
      (onOff disabledCamera).confPath.lookup (.bak 1) = none :=
  lookup_on_off plainConfig_lawful ⟨str "disabled", 8081⟩ ⟨str "disabled", 8081⟩ ⟨[], []⟩ ⟨[], []⟩
    disabledCamera 1

/-- The camera comes back enabled, and another one with it. -/
theorem onOff_disabled :
    plainConfig.Lawful ∧
      (onOff disabledCamera).confPath.lookup (.conf 1) ≠ disabledCamera.confPath.lookup (.conf 1) ∧
      .conf 2 ∉ disabledCamera.confPath ∧ .conf 2 ∈ (onOff disabledCamera).confPath := by
  refine ⟨plainConfig_lawful, ?_⟩
  decide

end MotionPie.Board.Raspberrypi
