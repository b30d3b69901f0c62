import MotionPie.Base.Directory

/-!
# Dictionaries

A dictionary is a finite map that lists its items in some order. What is done to a dictionary is
described by the items that it holds before and after, and does not depend on their order: items
that are set or deleted, and keys that are renamed to distinct names. Keys and values are arbitrary.
-/

namespace MotionPie.Base

universe u v

variable {α : Type u} {β : Type v}

/-- A dictionary. -/
abbrev Dict (α : Type u) (β : Type v) := AList fun _ : α ↦ β

/-- The order in which dictionaries list their items. -/
structure Order (α : Type u) (β : Type v) where
  items : Dict α β → List (α × β)
  perm : ∀ d, (items d).Perm (d.entries.map fun e ↦ (e.1, e.2))

/-- The items as they are stored. -/
def Order.stored : Order α β where
  items d := d.entries.map fun e ↦ (e.1, e.2)
  perm _ := .refl _

variable {o : Order α β} {d : Dict α β}

/-- No key is listed twice. -/
theorem Order.nodup_items (o : Order α β) (d : Dict α β) : ((o.items d).map Prod.fst).Nodup := by
  apply ((o.perm d).map Prod.fst).nodup_iff.mpr
  rw [List.map_map]
  exact d.keys_nodup

variable [DecidableEq α]

/-- Set items, first to last. -/
def insertAll (d : Dict α β) (items : List (α × β)) : Dict α β :=
  items.foldl (fun d i ↦ d.insert i.1 i.2) d

/-- `dict((f(n), v) for (n, v) in d.items())`, for a function that may fail. -/
def renameKeys (o : Order α β) (f : α → Option α) (d : Dict α β) : Option (Dict α β) :=
  ((o.items d).mapM fun i ↦ (f i.1).map fun n ↦ (n, i.2)).map (insertAll ∅)

variable {l : List (α × β)} {k : α} {v : β}

/-- The items are what is looked up. -/
theorem Order.mem_items : (k, v) ∈ o.items d ↔ d.lookup k = some v := by
  rw [(o.perm d).mem_iff, ← Option.mem_def, AList.mem_lookup_iff, List.mem_map]
  constructor
  · rintro ⟨⟨k', v'⟩, he, heq⟩
    cases heq
    exact he
  · exact fun h ↦ ⟨⟨k, v⟩, h, rfl⟩

/-- Items with distinct keys are all found. -/
theorem lookup_insertAll (h : (l.map Prod.fst).Nodup) :
    (insertAll d l).lookup k = some v ↔
      (k, v) ∈ l ∨ k ∉ l.map Prod.fst ∧ d.lookup k = some v := by
  induction l generalizing d with
  | nil => simp [insertAll]
  | cons i l ih =>
    obtain ⟨k', w⟩ := i
    rw [List.map_cons, List.nodup_cons] at h
    change (insertAll (d.insert k' w) l).lookup k = some v ↔ _
    rw [ih h.2, lookup_insert, List.mem_cons, Prod.mk.injEq, List.map_cons, List.mem_cons, not_or]
    by_cases hk : k = k'
    · subst hk
      have hnot : (k, v) ∉ l := fun hmem ↦ h.1 (List.mem_map.mpr ⟨_, hmem, rfl⟩)
      simp [hnot, h.1, eq_comm]
    · simp [hk]

/-- A key that is set stays set. -/
theorem isSome_lookup_insertAll (h : (d.lookup k).isSome) : ((insertAll d l).lookup k).isSome := by
  induction l generalizing d with
  | nil => exact h
  | cons i l ih =>
    apply ih
    rw [lookup_insert]
    split
    · rfl
    · exact h

/-- The keys that are set are found. -/
theorem isSome_lookup_of_mem (h : k ∈ l.map Prod.fst) : ((insertAll d l).lookup k).isSome := by
  induction l generalizing d with
  | nil => cases h
  | cons i l ih =>
    rcases List.mem_cons.mp h with rfl | h
    · apply isSome_lookup_insertAll (l := l)
      rw [lookup_insert, if_pos rfl]
      rfl
    · exact ih h

/-- What holds of all items before and of the items that are set holds of all items. -/
theorem forall_lookup_insertAll {P : α → β → Prop} (hd : ∀ k v, d.lookup k = some v → P k v)
    (hl : ∀ i ∈ l, P i.1 i.2) : ∀ k v, (insertAll d l).lookup k = some v → P k v := by
  induction l generalizing d with
  | nil => exact hd
  | cons i l ih =>
    rw [List.forall_mem_cons] at hl
    apply ih _ hl.2
    intro k v hv
    rw [lookup_insert] at hv
    split at hv
    · next hk =>
      cases hv
      exact hk ▸ hl.1
    · exact hd k v hv

/-- A key that is set hides what it had before. -/
theorem lookup_insertAll_congr {d d' : Dict α β}
    (h : k ∈ l.map Prod.fst ∨ d.lookup k = d'.lookup k) :
    (insertAll d l).lookup k = (insertAll d' l).lookup k := by
  induction l generalizing d d' with
  | nil => exact h.resolve_left List.not_mem_nil
  | cons i l ih =>
    apply ih
    rw [List.map_cons, List.mem_cons] at h
    rw [lookup_insert, lookup_insert]
    by_cases hk : k = i.1
    · exact .inr (by rw [if_pos hk, if_pos hk])
    · rw [if_neg hk, if_neg hk]
      rcases h with (h | h) | h
      · exact absurd h hk
      · exact .inl h
      · exact .inr h

/-- A key that is not set has the value from before. -/
theorem lookup_insertAll_of_notMem (h : k ∉ l.map Prod.fst) :
    (insertAll d l).lookup k = d.lookup k := by
  induction l generalizing d with
  | nil => rfl
  | cons i l ih =>
    rw [List.map_cons, List.mem_cons, not_or] at h
    change (insertAll (d.insert i.1 i.2) l).lookup k = _
    rw [ih h.2, lookup_insert, if_neg h.1]

/-! ### Dictionaries with given items -/

/-- The dictionary has exactly these items. -/
structure Holds (d : Dict α β) (l : List (α × β)) : Prop where
  nodup : (l.map Prod.fst).Nodup
  lookup : ∀ k v, d.lookup k = some v ↔ (k, v) ∈ l

variable {d' : Dict α β} {l' : List (α × β)}

theorem Holds.perm (h : Holds d l) (hperm : l.Perm l') : Holds d l' where
  nodup := (hperm.map Prod.fst).nodup_iff.mp h.nodup
  lookup k v := (h.lookup k v).trans hperm.mem_iff

/-- The items in the order of the dictionary. -/
theorem Holds.perm_items (h : Holds d l) : (o.items d).Perm l := by
  apply (List.perm_ext_iff_of_nodup (o.nodup_items d).of_map h.nodup.of_map).mpr
  rintro ⟨k, v⟩
  rw [Order.mem_items, h.lookup]

/-- Each value of the one dictionary becomes a value of the other one. -/
theorem Holds.lookup_map {f : α → β → β} (h : Holds d l)
    (h' : Holds d' (l.map fun i ↦ (i.1, f i.1 i.2))) (k : α) :
    d'.lookup k = (d.lookup k).map (f k) := by
  apply Option.ext
  intro w
  rw [h'.lookup, List.mem_map, Option.map_eq_some_iff]
  constructor
  · rintro ⟨i, hi, heq⟩
    cases heq
    exact ⟨i.2, (h.lookup _ _).mpr hi, rfl⟩
  · rintro ⟨v, hv, rfl⟩
    exact ⟨(k, v), (h.lookup k v).mp hv, rfl⟩

/-- A dictionary holds the items that it lists. -/
theorem holds_items (o : Order α β) (d : Dict α β) : Holds d (o.items d) where
  nodup := o.nodup_items d
  lookup _ _ := Order.mem_items.symm

/-- The items with some of the keys in front. -/
theorem Holds.front (h : Holds d l) {ks : List α} {us : List (α × β)}
    (hnodup : (us.map Prod.fst).Nodup)
    (hus : ∀ k v, (k, v) ∈ us ↔ k ∈ ks ∧ d.lookup k = some v) :
    Holds d (us ++ l.filter fun i ↦ i.1 ∉ ks) where
  nodup := by
    rw [List.map_append, List.nodup_append]
    refine ⟨hnodup, h.nodup.sublist (List.filter_sublist.map Prod.fst), ?_⟩
    intro k hk n hn hkn
    obtain ⟨i, hi, rfl⟩ := List.mem_map.mp hk
    obtain ⟨j, hj, rfl⟩ := List.mem_map.mp hn
    have hout := of_decide_eq_true (List.mem_filter.mp hj).2
    exact hout (hkn ▸ ((hus i.1 i.2).mp hi).1)
  lookup k v := by
    rw [List.mem_append, hus, List.mem_filter, decide_eq_true_eq, ← h.lookup]
    tauto

/-- A dictionary that is built from items with distinct keys. -/
theorem holds_insertAll (h : (l.map Prod.fst).Nodup) : Holds (insertAll ∅ l) l where
  nodup := h
  lookup k v := by
    rw [lookup_insertAll h, AList.lookup_empty]
    simp

/-- A dictionary over another one, with all of its keys. -/
theorem Holds.insertAll (h : Holds d l') (hl : (l.map Prod.fst).Nodup)
    (hkeys : ∀ i ∈ l', i.1 ∈ l.map Prod.fst) : Holds (insertAll d l) l where
  nodup := hl
  lookup k v := by
    rw [lookup_insertAll hl, h.lookup, or_iff_left_iff_imp]
    rintro ⟨hnot, hmem⟩
    exact absurd (hkeys _ hmem) hnot

theorem Holds.insert (h : Holds d l) (k : α) (v : β) :
    Holds (d.insert k v) ((k, v) :: l.filter fun i ↦ i.1 ≠ k) where
  nodup := by
    rw [List.map_cons, List.nodup_cons]
    refine ⟨fun hk ↦ ?_, h.nodup.sublist (List.filter_sublist.map Prod.fst)⟩
    obtain ⟨i, hi, hik⟩ := List.mem_map.mp hk
    exact of_decide_eq_true (List.mem_filter.mp hi).2 hik
  lookup n w := by
    rw [lookup_insert, List.mem_cons, Prod.mk.injEq, List.mem_filter, decide_eq_true_eq]
    by_cases hn : n = k
    · simp [hn, eq_comm]
    · simp [hn, h.lookup]

theorem Holds.erase (h : Holds d l) (k : α) : Holds (d.erase k) (l.filter fun i ↦ i.1 ≠ k) where
  nodup := h.nodup.sublist (List.filter_sublist.map Prod.fst)
  lookup n w := by
    rw [lookup_erase, List.mem_filter, decide_eq_true_eq]
    by_cases hn : n = k
    · simp [hn]
    · simp [hn, h.lookup]

/-- The keys are renamed, if no two of them get the same name. -/
theorem Holds.renameKeys (h : Holds d l) {f : α → Option α} {g : α → α}
    (hf : ∀ i ∈ l, f i.1 = some (g i.1)) (hnodup : (l.map fun i ↦ g i.1).Nodup) :
    ∃ d', renameKeys o f d = some d' ∧ Holds d' (l.map fun i ↦ (g i.1, i.2)) := by
  have hmap : ∀ ms : List (α × β), (∀ i ∈ ms, f i.1 = some (g i.1)) →
      ms.mapM (fun i ↦ (f i.1).map fun n ↦ (n, i.2)) = some (ms.map fun i ↦ (g i.1, i.2)) := by
    intro ms hms
    induction ms with
    | nil => rfl
    | cons i ms ih =>
      rw [List.forall_mem_cons] at hms
      rw [List.mapM_cons, hms.1, ih hms.2]
      rfl
  have hperm : ((o.items d).map fun i ↦ (g i.1, i.2)).Perm (l.map fun i ↦ (g i.1, i.2)) :=
    h.perm_items.map _
  have hkeys : ((l.map fun i ↦ (g i.1, i.2)).map Prod.fst).Nodup := by
    rwa [List.map_map]
  refine ⟨Base.insertAll ∅ ((o.items d).map fun i ↦ (g i.1, i.2)), ?_, ?_⟩
  · rw [Base.renameKeys, hmap _ fun i hi ↦ hf i (h.perm_items.mem_iff.mp hi), Option.map_some]
  · exact (holds_insertAll ((hperm.map Prod.fst).nodup_iff.mpr hkeys)).perm hperm

end MotionPie.Base
