import Mathlib.Data.List.Induction
import Mathlib.Data.List.Nodup

/-!
# Records replaced by key

A table is a list of records with a key. `upsert` deletes every record with the key of
the new one and appends it, so the last write of a key decides its record and its
place. Replaying a batch of writes on a table it has already been applied to changes
nothing. Records and keys are arbitrary.
-/

namespace MotionPie.Base

universe u v w

variable {α : Type u} {κ : Type v} {ν : Type w} [DecidableEq κ] (key : α → κ)

/-- Delete the records with the key of `a`, then append `a`. -/
def upsert (l : List α) (a : α) : List α := (l.filter fun b ↦ key b ≠ key a) ++ [a]

/-- Write a batch of records, first to last. -/
def upsertAll (l as : List α) : List α := as.foldl (upsert key) l

variable {key}

/-- The records after one write. -/
theorem mem_upsert {l : List α} {a b : α} :
    b ∈ upsert key l a ↔ (b ∈ l ∧ key b ≠ key a) ∨ b = a := by
  simp [upsert]

/-- A write leaves exactly one record with its key. -/
theorem filter_upsert_self (l : List α) (a : α) :
    (upsert key l a).filter (fun b ↦ key b = key a) = [a] := by
  simp [upsert, List.filter_filter]

/-- A write leaves the records with other keys alone. -/
theorem filter_upsert_of_ne (l : List α) {a : α} {k : κ} (h : k ≠ key a) :
    (upsert key l a).filter (fun b ↦ key b = k) = l.filter fun b ↦ key b = k := by
  have hfilter : ((l.filter fun b ↦ key b ≠ key a).filter fun b ↦ key b = k) =
      l.filter fun b ↦ key b = k := by
    rw [List.filter_filter]
    apply List.filter_congr
    intro b _
    by_cases hb : key b = k <;> simp [hb, h]
  rw [upsert, List.filter_append, hfilter]
  simp [Ne.symm h]

/-- Writing a record keeps keys distinct. -/
theorem nodup_upsert {l : List α} (a : α) (h : (l.map key).Nodup) :
    ((upsert key l a).map key).Nodup := by
  rw [upsert, List.map_append, List.nodup_append]
  refine ⟨h.sublist (List.filter_sublist.map key), by simp, ?_⟩
  intro x hx y hy
  obtain ⟨b, hb, rfl⟩ := List.mem_map.mp hx
  obtain rfl : y = key a := by simpa using hy
  simpa using (List.mem_filter.mp hb).2

/-- An empty batch writes nothing. -/
@[simp] theorem upsertAll_nil (l : List α) : upsertAll key l [] = l := rfl

/-- A batch starts with its first record. -/
@[simp] theorem upsertAll_cons (l : List α) (a : α) (as : List α) :
    upsertAll key l (a :: as) = upsertAll key (upsert key l a) as := rfl

/-- A batch in two parts. -/
theorem upsertAll_append (l as bs : List α) :
    upsertAll key l (as ++ bs) = upsertAll key (upsertAll key l as) bs :=
  List.foldl_append

/-- A batch keeps the untouched records in front, then come its own last writes. -/
theorem upsertAll_eq (l as : List α) :
    upsertAll key l as =
      (l.filter fun b ↦ key b ∉ as.map key) ++ upsertAll key [] as := by
  induction as using List.reverseRecOn with
  | nil => simp
  | append_singleton as a ih =>
    have hfilter : ((l.filter fun b ↦ key b ∉ as.map key).filter fun b ↦ key b ≠ key a) =
        l.filter fun b ↦ key b ∉ (as ++ [a]).map key := by
      rw [List.filter_filter]
      apply List.filter_congr
      intro b _
      by_cases hb : key b = key a <;> simp [hb]
    rw [upsertAll_append, ih, upsertAll_append, upsertAll_cons, upsertAll_nil, upsertAll_cons,
      upsertAll_nil, upsert, upsert, List.filter_append, hfilter, List.append_assoc]

/-- Every record written into the empty table comes from the batch. -/
theorem mem_upsertAll_nil {as : List α} {b : α} (h : b ∈ upsertAll key [] as) : b ∈ as := by
  induction as using List.reverseRecOn with
  | nil => simp at h
  | append_singleton as a ih =>
    rw [upsertAll_append, upsertAll_cons, upsertAll_nil, mem_upsert] at h
    rcases h with ⟨h, -⟩ | rfl
    · simp [ih h]
    · simp

/-- A record of the result is untouched or comes from the batch. -/
theorem mem_upsertAll {l as : List α} {b : α} (h : b ∈ upsertAll key l as) :
    (b ∈ l ∧ key b ∉ as.map key) ∨ b ∈ as := by
  rw [upsertAll_eq, List.mem_append] at h
  rcases h with h | h
  · exact .inl (by simpa using h)
  · exact .inr (mem_upsertAll_nil h)

/-- A batch leaves the untouched records as they are. -/
theorem filter_upsertAll (l as : List α) :
    (upsertAll key l as).filter (fun b ↦ key b ∉ as.map key) =
      l.filter fun b ↦ key b ∉ as.map key := by
  have hnil : (upsertAll key [] as).filter (fun b ↦ key b ∉ as.map key) = [] := by
    rw [List.filter_eq_nil_iff]
    intro b hb
    simpa using ⟨b, mem_upsertAll_nil hb, rfl⟩
  rw [upsertAll_eq, List.filter_append, hnil, List.append_nil, List.filter_filter]
  simp

/-- A batch only depends on the untouched records. -/
theorem upsertAll_congr {l l' as : List α}
    (h : (l.filter fun b ↦ key b ∉ as.map key) = l'.filter fun b ↦ key b ∉ as.map key) :
    upsertAll key l as = upsertAll key l' as := by
  rw [upsertAll_eq, h, ← upsertAll_eq]

/-- Replaying a batch on a table whose untouched records are those it left changes nothing. -/
theorem upsertAll_replay {l l' as : List α}
    (h : (l'.filter fun b ↦ key b ∉ as.map key) =
      (upsertAll key l as).filter fun b ↦ key b ∉ as.map key) :
    upsertAll key l' as = upsertAll key l as :=
  upsertAll_congr (h.trans (filter_upsertAll l as))

/-- Replaying a batch undoes a change to the records it writes. -/
theorem upsertAll_replay_map {F : α → α} (hF : ∀ a, key (F a) = key a) {l as : List α}
    (hfix : ∀ b ∈ l, key b ∉ as.map key → F b = b) :
    upsertAll key ((upsertAll key l as).map F) as = upsertAll key l as := by
  apply upsertAll_replay
  rw [List.filter_map, List.map_congr_left (g := id), List.map_id]
  · simp only [Function.comp_def, hF]
  · intro b hb
    have hkey : key b ∉ as.map key := by simpa [hF] using (List.mem_filter.mp hb).2
    rcases mem_upsertAll (List.mem_filter.mp hb).1 with ⟨hmem, -⟩ | hmem
    · exact hfix b hmem hkey
    · exact absurd (List.mem_map_of_mem hmem) hkey

/-- A change of records that keeps their keys can be made before or after a batch. -/
theorem upsertAll_map {F : α → α} (hF : ∀ a, key (F a) = key a) (l as : List α) :
    (upsertAll key l as).map F = upsertAll key (l.map F) (as.map F) := by
  induction as generalizing l with
  | nil => rfl
  | cons a as ih =>
    have hupsert : (upsert key l a).map F = upsert key (l.map F) (F a) := by
      simp [upsert, List.filter_map, Function.comp_def, hF]
    rw [upsertAll_cons, ih, hupsert, List.map_cons, upsertAll_cons]

/-- Only the last write of a key matters: the records of a batch may be changed in any way
that keeps their keys and leaves the resulting records alone. -/
theorem upsertAll_settle {F : α → α} (hF : ∀ a, key (F a) = key a) {l as : List α}
    (hfix : ∀ b ∈ upsertAll key l as, key b ∈ as.map key → F b = b) :
    upsertAll key l (as.map F) = upsertAll key l as := by
  -- the change, made to the written keys only, so that it leaves the whole result alone
  let G : α → α := fun b ↦ if key b ∈ as.map key then F b else b
  have hG : ∀ b, key (G b) = key b := by
    intro b
    by_cases hb : key b ∈ as.map key <;> simp only [G, hb, if_true, if_false, hF]
  have hbatch : as.map G = as.map F := by
    apply List.map_congr_left
    intro a ha
    simp only [G, List.mem_map_of_mem ha, if_true]
  have hfinal : (upsertAll key l as).map G = upsertAll key l as := by
    rw [List.map_congr_left (g := id), List.map_id]
    intro b hb
    by_cases hk : key b ∈ as.map key
    · simp only [G, hk, if_true, hfix b hb hk, id]
    · simp only [G, hk, if_false, id]
  have hkeys : (as.map F).map key = as.map key := by simp [Function.comp_def, hF]
  have hrest : (l.filter fun b ↦ key b ∉ as.map key) =
      (l.map G).filter fun b ↦ key b ∉ as.map key := by
    rw [List.filter_map, List.map_congr_left (g := id), List.map_id]
    · simp only [Function.comp_def, hG]
    · intro b hb
      have hk : key b ∉ as.map key := by simpa [hG] using (List.mem_filter.mp hb).2
      simp only [G, hk, if_false, id]
  calc upsertAll key l (as.map F) = upsertAll key (l.map G) (as.map F) :=
        upsertAll_congr (by rw [hkeys]; exact hrest)
    _ = (upsertAll key l as).map G := by rw [upsertAll_map hG, hbatch]
    _ = upsertAll key l as := hfinal

/-- The records with a key that a batch does not write. -/
theorem filter_upsertAll_of_notMem (l : List α) {as : List α} {k : κ} (h : k ∉ as.map key) :
    (upsertAll key l as).filter (fun b ↦ key b = k) = l.filter fun b ↦ key b = k := by
  induction as generalizing l with
  | nil => rfl
  | cons a as ih =>
    rw [List.map_cons, List.mem_cons, not_or] at h
    rw [upsertAll_cons, ih _ h.2, filter_upsert_of_ne l h.1]

/-- A batch keeps keys distinct. -/
theorem nodup_upsertAll {l : List α} (as : List α) (h : (l.map key).Nodup) :
    ((upsertAll key l as).map key).Nodup := by
  induction as generalizing l with
  | nil => exact h
  | cons a as ih => exact ih (nodup_upsert a h)

omit [DecidableEq κ] in
/-- With distinct keys, values are distinct when no two keys share one. -/
theorem nodup_val_iff {val : α → ν} {l : List α} (hk : (l.map key).Nodup) :
    (l.map val).Nodup ↔ ∀ a ∈ l, ∀ b ∈ l, val a = val b → key a = key b := by
  rw [List.nodup_map_iff_inj_on (hk.of_map key)]
  constructor
  · intro h a ha b hb he
    rw [h a ha b hb he]
  · intro h a ha b hb he
    exact List.inj_on_of_nodup_map hk ha hb (h a ha b hb he)

/-- With distinct keys, a key has at most one record. -/
theorem filter_of_nodup {l : List α} (hk : (l.map key).Nodup) {a : α} (ha : a ∈ l) :
    (l.filter fun b ↦ key b = key a) = [a] := by
  induction l with
  | nil => simp at ha
  | cons c l ih =>
    obtain ⟨hc, hl⟩ := List.nodup_cons.mp hk
    by_cases he : key c = key a
    · have hrest : (l.filter fun b ↦ key b = key a) = [] := by
        rw [List.filter_eq_nil_iff]
        intro b hb hkey
        rw [decide_eq_true_eq, ← he] at hkey
        exact hc (List.mem_map.mpr ⟨b, hb, hkey⟩)
      have hac : a = c := by
        rcases List.mem_cons.mp ha with h | h
        · exact h
        · exact absurd (List.mem_map.mpr ⟨a, h, he.symm⟩) hc
      rw [List.filter_cons_of_pos (by simpa using he), hrest, hac]
    · have hal : a ∈ l := by
        rcases List.mem_cons.mp ha with rfl | h
        · exact absurd rfl he
        · exact h
      simp [he, ih hl hal]

/-- With distinct keys, the records of a key are none or one. -/
theorem filter_of_nodup_cases {l : List α} (hk : (l.map key).Nodup) (k : κ) :
    (l.filter fun b ↦ key b = k) = [] ∨ ∃ a, (l.filter fun b ↦ key b = k) = [a] := by
  by_cases h : ∃ a ∈ l, key a = k
  · obtain ⟨a, ha, rfl⟩ := h
    exact .inr ⟨a, filter_of_nodup hk ha⟩
  · refine .inl (List.filter_eq_nil_iff.mpr fun b hb hkey ↦ ?_)
    exact h ⟨b, hb, by simpa using hkey⟩

/-- With one record for `k`, of value `v`, and no other record of value `v`, looking `v` up
by value gives back `k`. -/
theorem lookup_inverse [DecidableEq ν] {val : α → ν} {l : List α} {k : κ} {v : ν}
    (hk : (l.filter fun b ↦ key b = k).map val = [v])
    (hv : ∀ b ∈ l, val b = v → key b = k) :
    (l.filter fun b ↦ val b = v).map key = [k] := by
  have hval : ∀ b ∈ l, key b = k → val b = v := by
    intro b hb he
    have hmem : val b ∈ (l.filter fun b ↦ key b = k).map val :=
      List.mem_map.mpr ⟨b, List.mem_filter.mpr ⟨hb, by simpa using he⟩, rfl⟩
    simpa [hk] using hmem
  have hfilter : (l.filter fun b ↦ val b = v) = l.filter fun b ↦ key b = k := by
    apply List.filter_congr
    intro b hb
    rw [decide_eq_decide]
    exact ⟨hv b hb, hval b hb⟩
  obtain ⟨a, ha, -⟩ := List.map_eq_singleton_iff.mp hk
  have hmem : a ∈ l.filter fun b ↦ key b = k := by simp [ha]
  rw [hfilter, ha, List.map_singleton]
  simpa using (List.mem_filter.mp hmem).2

end MotionPie.Base
