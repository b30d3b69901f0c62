import Mathlib.Logic.Function.Basic

/-!
# Who cleans up

Parties make resources under names that are free at that moment, and remove them again. A
ledger says what is there, who has made it last, and what each party has in hand, which is one
resource at most. A party that lets go of a resource without removing it leaves litter, and
the litter stays, since nobody removes what another party has made. Names, parties and
resources are arbitrary.
-/

namespace MotionPie.Base

universe u v w

/-- Resources by name, the maker of each, and what every party has in hand. -/
structure Ledger (ι : Type u) (κ : Type v) (β : Type w) where
  stock : κ → Option β
  maker : κ → Option ι
  hand : ι → Option κ

namespace Ledger

variable {ι : Type u} {κ : Type v} {β : Type w}

/-- What a party has in hand is there, and is its own. -/
def Sound (l : Ledger ι κ β) : Prop :=
  ∀ p k, l.hand p = some k → l.stock k ≠ none ∧ l.maker k = some p

/-- The party has everything in hand that it has made and that is still there. -/
def Tidy (l : Ledger ι κ β) (p : ι) : Prop :=
  ∀ k, l.stock k ≠ none → l.maker k = some p → l.hand p = some k

/-- The party has let go of something that is still there. -/
def Litter (l : Ledger ι κ β) (p : ι) : Prop :=
  ∃ k, l.stock k ≠ none ∧ l.maker k = some p ∧ l.hand p ≠ some k

/-- Nothing is there that the party has made. -/
def Clear (l : Ledger ι κ β) (p : ι) : Prop := ∀ k, l.stock k ≠ none → l.maker k ≠ some p

variable {l l' : Ledger ι κ β} {p : ι}

/-- A party that lets go of what it has in hand leaves litter. -/
theorem Sound.litter (hs : l.Sound) {k : κ} (hand : l.hand p = some k) (hand' : l'.hand p = none)
    (stock : l'.stock = l.stock) (maker : l'.maker = l.maker) : l'.Litter p := by
  obtain ⟨hstock, hmaker⟩ := hs p k hand
  exact ⟨k, stock ▸ hstock, maker ▸ hmaker, by simp [hand']⟩

/-- A tidy party with empty hands has left nothing. -/
theorem Tidy.clear (ht : l.Tidy p) (hand : l.hand p = none) : l.Clear p := by
  intro k hstock hmaker
  rw [ht k hstock hmaker] at hand
  cases hand

/-- Litter is something that the party has made. -/
theorem Litter.not_clear (hl : l.Litter p) : ¬ l.Clear p := by
  obtain ⟨k, hstock, hmaker, -⟩ := hl
  exact fun hc ↦ hc k hstock hmaker

variable [DecidableEq κ]

/-- What a step of party `p` does. It lets go of something only if `gives` permits that. -/
inductive Move (p : ι) (gives : Prop) (l l' : Ledger ι κ β) : Prop
  | keep (hand : l'.hand p = l.hand p) (stock : ∀ k, l'.stock k = none ↔ l.stock k = none)
      (maker : l'.maker = l.maker)
  | make (k : κ) (v : β) (free : l.stock k = none) (hand : l.hand p = none)
      (hand' : l'.hand p = some k) (stock : l'.stock = Function.update l.stock k (some v))
      (maker : l'.maker = Function.update l.maker k (some p))
  | remove (k : κ) (hand : l.hand p = some k) (hand' : l'.hand p = none)
      (stock : l'.stock = Function.update l.stock k none) (maker : l'.maker = l.maker)
  | drop (may : gives) (hand' : l'.hand p = none) (stock : l'.stock = l.stock)
      (maker : l'.maker = l.maker)

variable {q : ι} {gives : Prop}

/-- Nothing changes. -/
theorem Move.same (hand : l'.hand p = l.hand p) (stock : l'.stock = l.stock)
    (maker : l'.maker = l.maker) : Move p gives l l' :=
  .keep hand (fun k ↦ by rw [stock]) maker

/-- Only what the party itself has in hand matters. -/
theorem Move.of_hand (hm : Move p gives ⟨l.stock, l.maker, fun _ ↦ l.hand p⟩
    ⟨l'.stock, l'.maker, fun _ ↦ l'.hand p⟩) : Move p gives l l' := by
  cases hm with
  | keep hand stock maker => exact .keep hand stock maker
  | make k v free hand hand' stock maker => exact .make k v free hand hand' stock maker
  | remove k hand hand' stock maker => exact .remove k hand hand' stock maker
  | drop may hand' stock maker => exact .drop may hand' stock maker

/-- A permission that holds more often. -/
theorem Move.mono {may : Prop} (hm : Move p gives l l') (h : gives → may) : Move p may l l' := by
  cases hm with
  | keep hand stock maker => exact .keep hand stock maker
  | make k v free hand hand' stock maker => exact .make k v free hand hand' stock maker
  | remove k hand hand' stock maker => exact .remove k hand hand' stock maker
  | drop hgives hand' stock maker => exact .drop (h hgives) hand' stock maker

/-- Something of another party is still there after the step, and still of that party. -/
theorem Move.frame (hm : Move p gives l l') (hs : l.Sound) {k : κ} (hq : q ≠ p)
    (hstock : l.stock k ≠ none) (hmaker : l.maker k = some q) :
    l'.stock k ≠ none ∧ l'.maker k = some q := by
  cases hm with
  | keep _ stock maker => exact ⟨fun h ↦ hstock ((stock k).mp h), maker ▸ hmaker⟩
  | make j v free _ _ stock maker =>
    have hj : k ≠ j := by
      rintro rfl
      exact hstock free
    rw [stock, maker, Function.update_of_ne hj, Function.update_of_ne hj]
    exact ⟨hstock, hmaker⟩
  | remove j hand _ stock maker =>
    have hj : k ≠ j := by
      rintro rfl
      exact hq (Option.some.inj (hmaker.symm.trans (hs p k hand).2))
    rw [stock, maker, Function.update_of_ne hj]
    exact ⟨hstock, hmaker⟩
  | drop _ _ stock maker => exact ⟨stock ▸ hstock, maker ▸ hmaker⟩

/-- Something of another party that is there after the step was there before. -/
theorem Move.old (hm : Move p gives l l') {k : κ} (hq : q ≠ p) (hstock : l'.stock k ≠ none)
    (hmaker : l'.maker k = some q) : l.stock k ≠ none ∧ l.maker k = some q := by
  cases hm with
  | keep _ stock maker => exact ⟨fun h ↦ hstock ((stock k).mpr h), maker ▸ hmaker⟩
  | make j v _ _ _ stock maker =>
    have hj : k ≠ j := by
      rintro rfl
      rw [maker, Function.update_self] at hmaker
      exact hq (Option.some.inj hmaker).symm
    rw [stock, Function.update_of_ne hj] at hstock
    rw [maker, Function.update_of_ne hj] at hmaker
    exact ⟨hstock, hmaker⟩
  | remove j _ _ stock maker =>
    have hj : k ≠ j := by
      rintro rfl
      rw [stock, Function.update_self] at hstock
      exact hstock rfl
    rw [stock, Function.update_of_ne hj] at hstock
    exact ⟨hstock, maker ▸ hmaker⟩
  | drop _ _ stock maker => exact ⟨stock ▸ hstock, maker ▸ hmaker⟩

/-- Every step keeps the ledger sound. -/
theorem Sound.move (hs : l.Sound) (hm : Move p gives l l')
    (hother : ∀ q, q ≠ p → l'.hand q = l.hand q) : l'.Sound := by
  intro q k hk
  by_cases hq : q = p
  · subst hq
    cases hm with
    | keep hand stock maker =>
      obtain ⟨hstock, hmaker⟩ := hs q k (hand ▸ hk)
      exact ⟨fun h ↦ hstock ((stock k).mp h), maker ▸ hmaker⟩
    | make j v _ _ hand' stock maker =>
      obtain rfl : j = k := Option.some.inj (hand'.symm.trans hk)
      simp [stock, maker]
    | remove _ _ hand' => exact absurd (hand'.symm.trans hk) (by simp)
    | drop _ hand' => exact absurd (hand'.symm.trans hk) (by simp)
  · rw [hother q hq] at hk
    exact hm.frame hs hq (hs q k hk).1 (hs q k hk).2

/-- A party that may not let go stays tidy. -/
theorem Tidy.move (ht : l.Tidy p) (hm : Move p False l l') : l'.Tidy p := by
  intro k hstock hmaker
  cases hm with
  | keep hand stock maker =>
    rw [hand]
    exact ht k (fun h ↦ hstock ((stock k).mpr h)) (maker ▸ hmaker)
  | make j v free hand hand' stock maker =>
    by_cases hj : k = j
    · rw [hand', hj]
    · rw [stock, Function.update_of_ne hj] at hstock
      rw [maker, Function.update_of_ne hj] at hmaker
      rw [ht k hstock hmaker] at hand
      cases hand
  | remove j hand hand' stock maker =>
    have hj : k ≠ j := by
      rintro rfl
      rw [stock, Function.update_self] at hstock
      exact hstock rfl
    rw [stock, Function.update_of_ne hj] at hstock
    have hk := ht k hstock (maker ▸ hmaker)
    exact absurd (Option.some.inj (hk.symm.trans hand)) hj
  | drop may => exact may.elim

/-- A party stays tidy while another one takes a step. -/
theorem Tidy.move_of_ne (ht : l.Tidy q) (hm : Move p gives l l') (hq : q ≠ p)
    (hother : ∀ q, q ≠ p → l'.hand q = l.hand q) : l'.Tidy q := by
  intro k hstock hmaker
  obtain ⟨hstock, hmaker⟩ := hm.old hq hstock hmaker
  rw [hother q hq]
  exact ht k hstock hmaker

/-- Litter stays, whoever takes a step. -/
theorem Litter.move (hl : l.Litter q) (hs : l.Sound) (hm : Move p gives l l')
    (hother : ∀ q, q ≠ p → l'.hand q = l.hand q) : l'.Litter q := by
  obtain ⟨k, hstock, hmaker, hhand⟩ := hl
  by_cases hq : q = p
  · subst hq
    refine ⟨k, ?_⟩
    cases hm with
    | keep hand stock maker =>
      exact ⟨fun h ↦ hstock ((stock k).mp h), maker ▸ hmaker, hand ▸ hhand⟩
    | make j v free _ hand' stock maker =>
      have hj : k ≠ j := by
        rintro rfl
        exact hstock free
      rw [stock, maker, hand', Function.update_of_ne hj, Function.update_of_ne hj]
      exact ⟨hstock, hmaker, fun h ↦ hj (Option.some.inj h).symm⟩
    | remove j hand hand' stock maker =>
      have hj : k ≠ j := by
        rintro rfl
        exact hhand hand
      rw [stock, maker, hand', Function.update_of_ne hj]
      exact ⟨hstock, hmaker, by simp⟩
    | drop _ hand' stock maker =>
      rw [stock, maker, hand']
      exact ⟨hstock, hmaker, by simp⟩
  · obtain ⟨hstock, hmaker⟩ := hm.frame hs hq hstock hmaker
    exact ⟨k, hstock, hmaker, hother q hq ▸ hhand⟩

end Ledger

end MotionPie.Base
