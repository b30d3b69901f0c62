import Mathlib.Data.List.Infix
import Mathlib.Data.List.Nodup
import MotionPie.Shell.Text

/-!
# Whether streameye runs

`enabled` of `board/raspberrypi/overlay/etc/init.d/S94streameye` and `_get_streameye_enabled` of
`board/raspberrypi/motioneye-modules/streameyectl.py`. The script searches the lines of
`thread-1.conf`, the module looks at the entries of the only camera, whatever its number is.
-/

namespace MotionPie.Board.Raspberrypi

open Base Shell

/-- The camera files `thread-N.conf` by their numbers. -/
structure Threads where
  ids : List Nat
  nodup : ids.Nodup
  content : Nat → Bytes

/-- The file of a camera, if there is one. -/
def Threads.file (t : Threads) (n : Nat) : Option Bytes :=
  if n ∈ t.ids then some (t.content n) else none

/-! ### The script -/

/-- The pattern `127.0.0.1:` at the start of a text. A dot stands for any byte. -/
def loopback : Bytes → Bool
  | 49 :: 50 :: 55 :: _ :: 48 :: _ :: 48 :: _ :: 49 :: 58 :: _ => true
  | _ => false

/-- The pattern `# @url http://(.*)127.0.0.1:` somewhere in a line. -/
def urlPattern (line : Bytes) : Bool :=
  line.tails.any fun t ↦
    (str "# @url http://").isPrefixOf t && (t.drop (str "# @url http://").length).tails.any loopback

/-- Whether `grep` finds a line. -/
def found (p : Bytes → Bool) (file : Option Bytes) : Bool :=
  file.any fun content ↦ (lines content).any p

/-- `enabled`, `S94streameye:5-21`. -/
def enabled (t : Threads) : Bool :=
  if t.ids.length ≠ 1 then false
  else if !found (contains (str "# @proto mjpeg")) (t.file 1) then false
  else if !found urlPattern (t.file 1) then false
  else true

/-! ### The module -/

/-- `_get_streameye_enabled`, `streameyectl.py:136-157`, for the entries that motionEye reads in a
file, by their names, and the answer that is cached. -/
def getStreameyeEnabled (entry : Bytes → Bytes → Option Bytes) (cached : Option Bool)
    (t : Threads) : Bool :=
  match cached with
  | some answer => answer
  | none =>
    match t.ids with
    | [n] =>
      if entry (t.content n) (str "@proto") ≠ some (str "mjpeg") then false
      else if !contains (str "127.0.0.1:") ((entry (t.content n) (str "@url")).getD []) then false
      else true
    | _ => false

/-! ### Agreement -/

/-- A camera that streams from this host, by its entries. -/
def Local (entry : Bytes → Bytes → Option Bytes) (content : Bytes) : Prop :=
  entry content (str "@proto") = some (str "mjpeg") ∧
    contains (str "127.0.0.1:") ((entry content (str "@url")).getD []) = true

/-- The lines that the script looks for. -/
def Listed (content : Bytes) : Prop :=
  (∃ line ∈ lines content, contains (str "# @proto mjpeg") line = true) ∧
    ∃ line ∈ lines content, urlPattern line = true

/-- The directories on which script and module differ: the only camera is not the first one, or it
is the first one and one of the two tests has another outcome in the text than on the entries. -/
inductive Differ (entry : Bytes → Bytes → Option Bytes) (t : Threads) : Prop
  | number (n : Nat) (hids : t.ids = [n]) (hne : n ≠ 1) (hlocal : Local entry (t.content n))
  | protoMissed (hids : t.ids = [1]) (hlocal : Local entry (t.content 1))
    (hproto : ∀ line ∈ lines (t.content 1), contains (str "# @proto mjpeg") line = false)
  | urlMissed (hids : t.ids = [1]) (hlocal : Local entry (t.content 1))
    (hurl : ∀ line ∈ lines (t.content 1), urlPattern line = false)
  | protoMistaken (hids : t.ids = [1]) (hlisted : Listed (t.content 1))
    (hproto : entry (t.content 1) (str "@proto") ≠ some (str "mjpeg"))
  | urlMistaken (hids : t.ids = [1]) (hlisted : Listed (t.content 1))
    (hurl : contains (str "127.0.0.1:") ((entry (t.content 1) (str "@url")).getD []) = false)

variable {entry : Bytes → Bytes → Option Bytes} {t : Threads}

/-- The script says yes for the first camera alone. -/
theorem enabled_iff : enabled t = true ↔ t.ids = [1] ∧ Listed (t.content 1) := by
  have hfile : t.ids.length = 1 → (t.ids = [1] ↔ 1 ∈ t.ids) := by
    intro hlength
    obtain ⟨n, hids⟩ := List.length_eq_one_iff.mp hlength
    rw [hids, List.mem_singleton, List.singleton_inj, eq_comm]
  simp only [enabled, found, Threads.file, Listed]
  by_cases hlength : t.ids.length = 1
  · rw [hfile hlength]
    by_cases hmem : 1 ∈ t.ids <;> simp [hlength, hmem]
  · have hids : t.ids ≠ [1] := fun h ↦ hlength (by rw [h]; rfl)
    simp [hlength, hids]

/-- The module says yes for any camera that is alone. -/
theorem getStreameyeEnabled_iff :
    getStreameyeEnabled entry none t = true ↔ ∃ n, t.ids = [n] ∧ Local entry (t.content n) := by
  simp only [getStreameyeEnabled, Local]
  split
  · next n hids => simp [hids]
  · next hids => simpa using fun n hn ↦ absurd hn (hids n)

/-- Script and module agree on all other directories. -/
theorem enabled_agree_iff (entry : Bytes → Bytes → Option Bytes) (t : Threads) :
    (enabled t = true ↔ getStreameyeEnabled entry none t = true) ↔ ¬ Differ entry t := by
  rw [enabled_iff, getStreameyeEnabled_iff]
  constructor
  · intro h hdiffer
    cases hdiffer with
    | number n hids hne hlocal =>
      have hone := (h.mpr ⟨n, hids, hlocal⟩).1
      rw [hids, List.singleton_inj] at hone
      exact hne hone
    | protoMissed hids hlocal hproto =>
      obtain ⟨line, hline, hfound⟩ := (h.mpr ⟨1, hids, hlocal⟩).2.1
      rw [hproto line hline] at hfound
      cases hfound
    | urlMissed hids hlocal hurl =>
      obtain ⟨line, hline, hfound⟩ := (h.mpr ⟨1, hids, hlocal⟩).2.2
      rw [hurl line hline] at hfound
      cases hfound
    | protoMistaken hids hlisted hproto =>
      obtain ⟨n, hn, hlocal⟩ := h.mp ⟨hids, hlisted⟩
      obtain rfl : 1 = n := List.singleton_inj.mp (hids.symm.trans hn)
      exact hproto hlocal.1
    | urlMistaken hids hlisted hurl =>
      obtain ⟨n, hn, hlocal⟩ := h.mp ⟨hids, hlisted⟩
      obtain rfl : 1 = n := List.singleton_inj.mp (hids.symm.trans hn)
      rw [hlocal.2] at hurl
      cases hurl
  · intro h
    constructor
    · intro ⟨hids, hlisted⟩
      refine ⟨1, hids, ?_, ?_⟩
      · by_contra hproto
        exact h (.protoMistaken hids hlisted hproto)
      · by_contra hurl
        exact h (.urlMistaken hids hlisted (by simpa using hurl))
    · intro ⟨n, hids, hlocal⟩
      have hone : n = 1 := by
        by_contra hne
        exact h (.number n hids hne hlocal)
      subst hone
      refine ⟨hids, ?_, ?_⟩
      · by_contra hproto
        exact h (.protoMissed hids hlocal (by simpa using hproto))
      · by_contra hurl
        exact h (.urlMissed hids hlocal (by simpa using hurl))

/-! ### Entries that stand in lines of their own -/

/-- Every entry that is read stands in a line of its own. -/
def Written (entry : Bytes → Bytes → Option Bytes) (content : Bytes) : Prop :=
  ∀ name v, entry content name = some v → str "# " ++ name ++ str " " ++ v ∈ lines content

/-- The pattern takes the text for itself. -/
theorem loopback_of_prefix {s : Bytes} (h : str "127.0.0.1:" <+: s) : loopback s = true := by
  obtain ⟨r, rfl⟩ := h
  rfl

/-- An address on this host matches the pattern if it starts with the right scheme. -/
theorem urlPattern_http {u : Bytes} (h : contains (str "127.0.0.1:") (str "http://" ++ u) = true) :
    urlPattern (str "# @url " ++ (str "http://" ++ u)) = true := by
  -- The scheme has no digit in it, so the host stands behind it.
  have hu : contains (str "127.0.0.1:") u = true := h
  rw [contains, List.any_eq_true] at hu
  obtain ⟨t, ht, hhost⟩ := hu
  have hloopback : u.tails.any loopback = true :=
    List.any_eq_true.mpr ⟨t, ht, loopback_of_prefix (List.isPrefixOf_iff_prefix.mp hhost)⟩
  have hline : str "# @url " ++ (str "http://" ++ u) = str "# @url http://" ++ u := rfl
  rw [hline, urlPattern, List.any_eq_true]
  refine ⟨str "# @url http://" ++ u, (List.mem_tails _ _).mpr List.suffix_rfl, ?_⟩
  rw [List.drop_left, hloopback, Bool.and_true, List.isPrefixOf_iff_prefix]
  exact List.prefix_append _ _

/-- The script finds the first camera if its address starts with the right scheme. -/
theorem listed_of_written {content u : Bytes} (hwritten : Written entry content)
    (hlocal : Local entry content)
    (hurl : entry content (str "@url") = some (str "http://" ++ u)) : Listed content := by
  have hhost := hlocal.2
  rw [hurl, Option.getD_some] at hhost
  exact ⟨⟨_, hwritten _ _ hlocal.1, by decide⟩, ⟨_, hwritten _ _ hurl, urlPattern_http hhost⟩⟩

/-- Script and module both find the first camera, where the entries stand in lines of their own and
its address starts with the right scheme. -/
theorem enabled_of_written {u : Bytes} (hids : t.ids = [1])
    (hwritten : Written entry (t.content 1)) (hlocal : Local entry (t.content 1))
    (hurl : entry (t.content 1) (str "@url") = some (str "http://" ++ u)) :
    enabled t = true ∧ getStreameyeEnabled entry none t = true :=
  ⟨enabled_iff.mpr ⟨hids, listed_of_written hwritten hlocal hurl⟩,
    getStreameyeEnabled_iff.mpr ⟨1, hids, hlocal⟩⟩

/-- The value of the last line `# name value`. -/
def lastLine (content name : Bytes) : Option Bytes :=
  ((lines content).filter (str "# " ++ name ++ str " ").isPrefixOf).getLast?.map
    (List.drop (name.length + 3))

/-- The second camera is alone and streams from this host: the module says yes, the script no. -/
theorem enabled_disagree :
    let content := str "# @proto mjpeg\n# @url http://127.0.0.1:8081/\n"
    lastLine content (str "@proto") = some (str "mjpeg") ∧
      lastLine content (str "@url") = some (str "http://127.0.0.1:8081/") ∧
      ¬ (enabled ⟨[2], List.nodup_singleton 2, fun _ ↦ content⟩ = true ↔
        getStreameyeEnabled lastLine none ⟨[2], List.nodup_singleton 2, fun _ ↦ content⟩ =
          true) := by
  decide

end MotionPie.Board.Raspberrypi
