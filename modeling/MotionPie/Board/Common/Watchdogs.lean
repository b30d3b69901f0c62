import Mathlib.Algebra.Order.Floor.Semiring
import Mathlib.Data.Rat.Floor
import MotionPie.Base.Streak
import MotionPie.Base.Text

/-!
# The watchdogs of the boot scripts

`watch_eth` and `watch_ip` of `S40network`, and `watch` of `S35wifi`, `S95motioneye` and
`S41netwatch`, check something over and over and count the failures in a row. Four of them poll
every five seconds and count seconds; `S41netwatch` counts attempts. Each one asks for a reboot
with exactly the failure that ends a run of a known length.

Variables of the shell that are compared or added are integers here; `count_lt` says that a
count stays close to its threshold.
-/

namespace MotionPie.Board.Common.Watchdogs

open Base Stream'

/-- What a watcher runs besides its check. -/
inductive Command
  | sleep (seconds : Bytes)
  | logger (tag message : Bytes)
  | reboot
  deriving DecidableEq

/-- One pass of a watcher: from the count and the outcome of the check to the new count and
what is run in this pass. -/
abbrev Pass := ℤ → Bool → ℤ × List Command

/-- The loop of the polling watchers: the first check follows `sleep 5`. -/
def poll (timeout : ℤ) (tag : Bytes) (lost : Option Bytes) (gone : Bytes) : Pass :=
  fun count ok ↦
    if ok then (0, [.sleep (str "5")])
    else if count < timeout then
      (count + 5, .sleep (str "5") :: (lost.map (.logger tag)).toList)
    else (count, [.sleep (str "5"), .logger tag gone, .reboot])

/-- `watch_eth`, `S40network:29-43`; the check is `mii-tool $eth 2>&1 | grep "link ok"`. -/
def S40network.watchEth (linkWatchTimeout : ℤ) : Pass :=
  poll linkWatchTimeout (str "ethernet") (some (str "disconnected"))
    (str "disconnected for " ++ showInt linkWatchTimeout ++ str " seconds, rebooting")

/-- `watch_ip`, `S40network:45-60`; the check is `ip addr show dev $iface | grep inet`. -/
def S40network.watchIp (ipWatchTimeout : ℤ) (iface : Bytes) : Pass :=
  poll ipWatchTimeout (str "network") (some (iface ++ str " has no IP address"))
    (iface ++ str " had no IP address for " ++ showInt ipWatchTimeout ++
      str " seconds, rebooting")

/-- `watch`, `S35wifi:41-57`; the check is `connected`. -/
def S35wifi.watch (linkWatchTimeout : ℤ) : Pass :=
  poll linkWatchTimeout (str "wifi") (some (str "disconnected"))
    (str "disconnected for " ++ showInt linkWatchTimeout ++ str " seconds, rebooting")

/-- `watch`, `S95motioneye:29-44`; the check is `responsive`. -/
def S95motioneye.watch (watchTimeout : ℤ) : Pass :=
  poll watchTimeout (str "motioneye") none
    (str "not responding for " ++ showInt watchTimeout ++ str " seconds, rebooting")

/-- `watch`, `S41netwatch:18-35`; the check is `nc -z`. After a failure that is only counted,
`continue` passes over the `sleep`. -/
def S41netwatch.watch (netwatchRetries : ℤ) (host port interval : Bytes) : Pass :=
  let netwatchRetries := netwatchRetries - 1
  fun count ok ↦
    if ok then (0, [.sleep interval])
    else if count < netwatchRetries then (count + 1, [])
    else (count, [.logger (str "netwatch")
      (str "cannot connect to " ++ host ++ str ":" ++ port ++ str ", rebooting"),
      .reboot, .sleep interval])

/-! ### Requests -/

/-- The check failed. -/
def failed (ok : Bool) : Bool := !ok

/-- The watcher asks for a reboot after check `n`; every one starts with `count=0`. -/
def Requests (watch : Pass) (s : Seq Bool) (n : ℕ) : Prop :=
  ∃ commands ∈ outputAt watch 0 s n, Command.reboot ∈ commands

/-- The first request comes exactly with the end of the first run of `k` failures, and there
is none without such a run. -/
def RebootsAfter (k : ℕ) (watch : Pass) : Prop :=
  ∀ s : Seq Bool,
    (∀ n, IsLeast {n | Requests watch s n} n ↔ IsLeast {n | RunEnds failed s k n} n) ∧
      ((∀ n, ¬ RunEnds failed s k n) → ∀ n, ¬ Requests watch s n)

/-- A polling watcher counts failures by five up to its timeout. -/
theorem tallies_poll (timeout : ℤ) (tag : Bytes) (lost : Option Bytes) (gone : Bytes) :
    Tallies (poll timeout tag lost gone) failed 5 timeout (Command.reboot ∈ ·) where
  reset := by
    intro count ok hok
    obtain rfl : ok = true := by simpa [failed] using hok
    simp [poll]
  count := by
    intro count ok hok hlow
    obtain rfl : ok = false := by simpa [failed] using hok
    simp [poll, hlow]
  full := by
    intro count ok hok hhigh
    obtain rfl : ok = false := by simpa [failed] using hok
    simp [poll, Int.not_lt.mpr hhigh]

/-- `S41netwatch` counts failures one by one up to one less than its retries. -/
theorem tallies_netwatch (retries : ℤ) (host port interval : Bytes) :
    Tallies (S41netwatch.watch retries host port interval) failed 1 (retries - 1)
      (Command.reboot ∈ ·) where
  reset := by
    intro count ok hok
    obtain rfl : ok = true := by simpa [failed] using hok
    simp [S41netwatch.watch]
  count := by
    intro count ok hok hlow
    obtain rfl : ok = false := by simpa [failed] using hok
    simp [S41netwatch.watch, hlow]
  full := by
    intro count ok hok hhigh
    obtain rfl : ok = false := by simpa [failed] using hok
    simp [S41netwatch.watch, Int.not_lt.mpr hhigh]

/-- The multiples of five below a timeout. -/
theorem five_mul_lt_iff (T j : ℕ) : 5 * (j : ℤ) < T ↔ j < ⌈(T : ℚ) / 5⌉₊ := by
  rw [Nat.lt_ceil, lt_div_iff₀ (by norm_num), mul_comm]
  exact_mod_cast Iff.rfl

/-- What is requested after a check says when the first request comes. -/
theorem rebootsAfter_of_iff {k : ℕ} {watch : Pass}
    (h : ∀ s n, Requests watch s n ↔ RunEnds failed s k n) : RebootsAfter k watch := by
  intro s
  have hsets : {n | Requests watch s n} = {n | RunEnds failed s k n} := Set.ext (h s)
  exact ⟨fun n ↦ by rw [hsets], fun hnone n hn ↦ hnone n ((h s n).mp hn)⟩

/-- A polling watcher asks for a reboot where a run of failures has lasted too long. -/
theorem rebootsAfter_poll (T : ℕ) (tag : Bytes) (lost : Option Bytes) (gone : Bytes) :
    RebootsAfter (⌈(T : ℚ) / 5⌉₊ + 1) (poll T tag lost gone) :=
  rebootsAfter_of_iff fun _ _ ↦ (tallies_poll T tag lost gone).alarm_iff (five_mul_lt_iff T)

/-- A count never leaves the timeout behind by a whole step. -/
theorem count_lt (T : ℕ) (tag : Bytes) (lost : Option Bytes) (gone : Bytes) {s : Seq Bool}
    {n : ℕ} (hs : ∀ i < n, (s.get? i).isSome) :
    ∃ count, stateBefore (poll T tag lost gone) 0 s n = some count ∧ 0 ≤ count ∧
      count < T + 5 := by
  refine ⟨_, (tallies_poll T tag lost gone).stateBefore_eq (five_mul_lt_iff T) hs, by omega, ?_⟩
  generalize hmin : min (streak failed s n) ⌈(T : ℚ) / 5⌉₊ = c
  cases c with
  | zero => omega
  | succ c =>
    have hbelow := (five_mul_lt_iff T c).mpr (by omega)
    omega

/-- Every watchdog reboots exactly when it should. -/
theorem watchdogs_reboot (T R : ℕ) (hR : 1 ≤ R) (iface host port interval : Bytes) :
    RebootsAfter (⌈(T : ℚ) / 5⌉₊ + 1) (S40network.watchEth T) ∧
      RebootsAfter (⌈(T : ℚ) / 5⌉₊ + 1) (S40network.watchIp T iface) ∧
      RebootsAfter (⌈(T : ℚ) / 5⌉₊ + 1) (S35wifi.watch T) ∧
      RebootsAfter (⌈(T : ℚ) / 5⌉₊ + 1) (S95motioneye.watch T) ∧
      RebootsAfter R (S41netwatch.watch R host port interval) := by
  refine ⟨rebootsAfter_poll T _ _ _, rebootsAfter_poll T _ _ _, rebootsAfter_poll T _ _ _,
    rebootsAfter_poll T _ _ _, ?_⟩
  apply rebootsAfter_of_iff
  intro s n
  have hretries : ∀ j : ℕ, 1 * (j : ℤ) < R - 1 ↔ j < R - 1 := fun j ↦ by omega
  have hlaw := (tallies_netwatch R host port interval).alarm_iff (s := s) (n := n) hretries
  rwa [Nat.sub_add_cancel hR] at hlaw

/-- With the defaults, the third failure in a row is the first one after which `S41netwatch`
asks for a reboot. -/
theorem watchdogs_reboot_third :
    IsLeast {n | Requests (S41netwatch.watch (3 : ℕ) (str "host") (str "80") (str "20"))
      (Seq.ofList [false, true, false, false, false, false]) n} 4 := by
  have hlaw := (watchdogs_reboot 20 3 (by decide) (str "eth0") (str "host") (str "80")
    (str "20")).2.2.2.2
  apply ((hlaw _).1 4).mpr
  refine ⟨⟨by decide, by decide⟩, ?_⟩
  rintro n ⟨hn, hrun⟩
  by_contra hlt
  obtain rfl | rfl : n = 2 ∨ n = 3 := by omega
  · exact absurd (hrun 1 (by decide) (by decide)) (by decide)
  · exact absurd (hrun 1 (by decide) (by decide)) (by decide)

end MotionPie.Board.Common.Watchdogs
