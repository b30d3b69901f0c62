import MotionPie.Base.Text
import MotionPie.Graph.Layers

/-!
# Derived dependencies of host packages

`package/pkg-generic.mk` and `package/pkg-virtual.mk`: what ends up in `FOO_DEPENDENCIES`, and
what `HOST_FOO_DEPENDENCIES` is when no recipe defines it. A package and its host variant are
two nodes of the graph that make sees. The derivation sends both `b` and `host-b` to `host-b`,
so the graph of the host variants is the declared one with each package and its host variant
taken as one.
-/

namespace MotionPie.Package.Generic

open Base MotionPie.Graph Relation

/-- The name of a package, or of its host variant. -/
abbrev Name := Bytes

/-- What the name of a host variant starts with. -/
def hostPrefix : Bytes := str "host-"

/-- `$(addprefix host-,n)`. -/
def hostName (n : Name) : Name := hostPrefix ++ n

/-- `$(patsubst host-host-%,host-%,w)`. -/
def patsubstHost (w : Name) : Name :=
  if hostPrefix ++ hostPrefix <+: w then hostName (w.drop (hostPrefix ++ hostPrefix).length) else w

/-- The package `skeleton`. -/
def skeleton : Name := str "skeleton"

/-- The package `toolchain`. -/
def toolchain : Name := str "toolchain"

/-- What the recipe of a package and the configuration say about its dependencies. The lists
of providers are empty unless the package is virtual. -/
structure Recipe where
  dependencies : List Name
  addToolchain : Bool
  provides : List Name
  host : Bool
  hostProvides : List Name

namespace Recipe

variable (r : Recipe) (x : Name)

/-- `FOO_DEPENDENCIES`, `package/pkg-generic.mk:445-452` after `package/pkg-virtual.mk:57`. -/
def targetDependencies : List Name :=
  r.dependencies ++ r.provides ++ (if x = skeleton then [] else [skeleton]) ++
    if r.addToolchain then [toolchain] else []

/-- `HOST_FOO_DEPENDENCIES` where no recipe defines it, `package/pkg-generic.mk:441-444` and
`package/pkg-virtual.mk:51-57`. The list of the target is expanded late, with all that has
been added to it. -/
def hostDependencies : List Name :=
  (((r.targetDependencies x).map hostName).map patsubstHost).filter
    (· ∉ [hostName skeleton, hostName toolchain, hostName x]) ++ r.hostProvides

end Recipe

/-- A set of packages. No target is named like a host variant, and a host variant is provided
by host packages. -/
structure Packages where
  recipe : Name → Option Recipe
  target_name : ∀ x r, recipe x = some r → ¬ hostPrefix <+: x
  provider_name : ∀ x r, recipe x = some r → ∀ d ∈ r.hostProvides, hostPrefix <+: d

namespace Packages

variable (ps : Packages)

/-- The declared relation: a target and what it depends on. -/
def TargetEdge (p d : Name) : Prop := ∃ r, ps.recipe p = some r ∧ d ∈ r.targetDependencies p

/-- A host variant and what it is derived to depend on. -/
def HostEdge (p d : Name) : Prop :=
  ∃ x r, hostName x = p ∧ ps.recipe x = some r ∧ r.host ∧ d ∈ r.hostDependencies x

/-- The graph that make sees. -/
def Edge (p d : Name) : Prop := ps.TargetEdge p d ∨ ps.HostEdge p d

end Packages

/-- The package that a node belongs to. -/
def baseName (d : Name) : Name := if hostPrefix <+: d then d.drop hostPrefix.length else d

/-- The declared relation with every package and its host variant taken as one: the packages
with a host variant, and what is left of their lists without `skeleton`, `toolchain` and the
package itself. -/
def Packages.FoldedEdge (ps : Packages) (x y : Name) : Prop :=
  ∃ r, ps.recipe x = some r ∧ r.host ∧
    ((y ∈ (r.targetDependencies x).map baseName ∧ y ∉ [skeleton, toolchain, x]) ∨
      hostName y ∈ r.hostProvides)

/-- Host variants of different packages have different names. -/
theorem hostName_injective : Function.Injective hostName :=
  fun _ _ h ↦ List.append_cancel_left h

/-- The name of a host variant. -/
theorem hostPrefix_prefix_hostName (n : Name) : hostPrefix <+: hostName n := ⟨n, rfl⟩

/-- A derived dependency is the host variant of the package that the declared one belongs to. -/
theorem patsubstHost_hostName (d : Name) : patsubstHost (hostName d) = hostName (baseName d) := by
  unfold patsubstHost baseName
  by_cases hd : hostPrefix <+: d
  · obtain ⟨n, rfl⟩ := hd
    have hstart : hostPrefix ++ hostPrefix <+: hostName (hostPrefix ++ n) :=
      ⟨n, List.append_assoc ..⟩
    rw [if_pos hstart, if_pos ⟨n, rfl⟩, List.drop_left, hostName, hostName, ← List.append_assoc,
      List.drop_left]
    rfl
  · have hstart : ¬ hostPrefix ++ hostPrefix <+: hostName d :=
      fun h ↦ hd ((List.prefix_append_right_inj hostPrefix).mp h)
    rw [if_neg hstart, if_neg hd]

/-- The derived list, one package at a time. -/
theorem hostName_mem_hostDependencies {r : Recipe} {x y : Name} :
    hostName y ∈ r.hostDependencies x ↔
      (y ∈ (r.targetDependencies x).map baseName ∧ y ∉ [skeleton, toolchain, x]) ∨
        hostName y ∈ r.hostProvides := by
  have hlist : ((r.targetDependencies x).map hostName).map patsubstHost =
      ((r.targetDependencies x).map baseName).map hostName := by
    simp only [List.map_map]
    exact List.map_congr_left fun d _ ↦ patsubstHost_hostName d
  rw [Recipe.hostDependencies, hlist, List.mem_append, List.mem_filter,
    List.mem_map_of_injective hostName_injective]
  simp [hostName_injective.eq_iff]

namespace Packages

variable {ps : Packages}

/-- A host variant depends on host variants only. -/
theorem HostEdge.host_name {p d : Name} (h : ps.HostEdge p d) : hostPrefix <+: d := by
  obtain ⟨x, r, -, hx, -, hd⟩ := h
  rcases List.mem_append.mp hd with hd | hd
  · obtain ⟨w, hw, rfl⟩ := List.mem_map.mp (List.mem_of_mem_filter hd)
    obtain ⟨n, -, rfl⟩ := List.mem_map.mp hw
    rw [patsubstHost_hostName]
    exact hostPrefix_prefix_hostName _
  · exact ps.provider_name x r hx d hd

/-- A target is not named like a host variant. -/
theorem TargetEdge.not_host_name {p d : Name} (h : ps.TargetEdge p d) : ¬ hostPrefix <+: p := by
  obtain ⟨r, hp, -⟩ := h
  exact ps.target_name p r hp

/-- The host variants among themselves are the folded relation under their own names. -/
theorem hostEdge_iff_map {p d : Name} :
    ps.HostEdge p d ↔ Relation.Map ps.FoldedEdge hostName hostName p d := by
  constructor
  · intro h
    obtain ⟨y, rfl⟩ : ∃ y, hostName y = d := h.host_name
    obtain ⟨x, r, rfl, hx, hhost, hd⟩ := h
    exact ⟨x, y, ⟨r, hx, hhost, hostName_mem_hostDependencies.mp hd⟩, rfl, rfl⟩
  · rintro ⟨x, y, ⟨r, hx, hhost, hy⟩, rfl, rfl⟩
    exact ⟨x, r, rfl, hx, hhost, hostName_mem_hostDependencies.mpr hy⟩

/-- No edge leads from a host variant to a target. -/
theorem closed_edge : Closed ps.Edge {n | hostPrefix <+: n} := by
  rintro p d (h | h) hp
  · exact absurd hp h.not_host_name
  · exact h.host_name

-- Outside the host variants the graph is the declared relation.
private theorem outside {p d : Name} (h : d ∉ {n | hostPrefix <+: n} ∧ ps.Edge p d) :
    ps.TargetEdge p d := by
  obtain ⟨hd, hedge | hedge⟩ := h
  · exact hedge
  · exact absurd hedge.host_name hd

-- Among the host variants it is the folded relation under their own names.
private theorem inside {p d : Name} :
    (p ∈ {n | hostPrefix <+: n} ∧ ps.Edge p d) ↔
      Relation.Map ps.FoldedEdge hostName hostName p d := by
  rw [← hostEdge_iff_map]
  constructor
  · rintro ⟨hp, hedge | hedge⟩
    · exact absurd hp hedge.not_host_name
    · exact hedge
  · intro hedge
    obtain ⟨x, r, rfl, -⟩ := id hedge
    exact ⟨hostPrefix_prefix_hostName x, .inr hedge⟩

/-- The graph that make sees has no cycle if and only if neither the declared relation has one,
nor the one in which every package and its host variant are taken as one. -/
theorem acyclic_edge_iff (ps : Packages) :
    Acyclic ps.Edge ↔ Acyclic ps.TargetEdge ∧ Acyclic ps.FoldedEdge := by
  have hfold := acyclic_map_iff (r := ps.FoldedEdge) hostName_injective
  constructor
  · intro hedge
    have hin := ((acyclic_iff_of_closed closed_edge).mp hedge).2
    exact ⟨hedge.mono fun _ _ ↦ .inl, hfold.mp (hin.mono fun _ _ ↦ inside.mpr)⟩
  · rintro ⟨htarget, hfolded⟩
    rw [acyclic_iff_of_closed closed_edge]
    exact ⟨htarget.mono fun _ _ ↦ outside, (hfold.mpr hfolded).mono fun _ _ ↦ inside.mp⟩

/-- Two packages with host variants: `glib` needs the host variant of `gettext` to build, and
`gettext` needs `glib`. -/
def crossingRecipe (x : Name) : Option Recipe :=
  if x = str "glib" then some ⟨[str "host-gettext"], true, [], true, []⟩
  else if x = str "gettext" then some ⟨[str "glib"], true, [], true, []⟩
  else none

-- What holds of the two recipes holds of every recipe.
private theorem crossingRecipe_cases {P : Name → Recipe → Prop}
    (hglib : P (str "glib") ⟨[str "host-gettext"], true, [], true, []⟩)
    (hgettext : P (str "gettext") ⟨[str "glib"], true, [], true, []⟩) (x : Name) (r : Recipe)
    (h : crossingRecipe x = some r) : P x r := by
  unfold crossingRecipe at h
  split at h
  · next hx =>
    cases h
    exact hx ▸ hglib
  · split at h
    · next hx =>
      cases h
      exact hx ▸ hgettext
    · cases h

private theorem crossing_target_name (x : Name) (r : Recipe) (h : crossingRecipe x = some r) :
    ¬ hostPrefix <+: x := by
  revert x r
  apply crossingRecipe_cases
  · decide
  · decide

private theorem crossing_provider_name (x : Name) (r : Recipe) (h : crossingRecipe x = some r) :
    ∀ d ∈ r.hostProvides, hostPrefix <+: d := by
  revert x r
  apply crossingRecipe_cases
  · decide
  · decide

/-- The set of these two packages. -/
def crossing : Packages := ⟨crossingRecipe, crossing_target_name, crossing_provider_name⟩

-- The declared edges of `crossing` lead down.
private def crossingRank (x : Name) : Nat :=
  if x = str "gettext" then 2 else if x = str "glib" then 1 else 0

/-- No recipe of `crossing` declares a cycle, and yet make meets one. -/
theorem crossing_cycle : Acyclic crossing.TargetEdge ∧ ¬ Acyclic crossing.Edge := by
  constructor
  · apply Acyclic.of_rank crossingRank
    have hdown : ∀ p r, crossingRecipe p = some r →
        ∀ d ∈ r.targetDependencies p, crossingRank d < crossingRank p := by
      apply crossingRecipe_cases
      · decide
      · decide
    rintro p d ⟨r, hp, hd⟩
    exact hdown p r hp d hd
  · intro h
    have hglib : crossing.Edge (str "host-glib") (str "host-gettext") :=
      .inr ⟨str "glib", _, rfl, rfl, rfl, by decide⟩
    have hgettext : crossing.Edge (str "host-gettext") (str "host-glib") :=
      .inr ⟨str "gettext", _, rfl, rfl, rfl, by decide⟩
    exact h _ ((TransGen.single hglib).tail hgettext)

end Packages

end MotionPie.Package.Generic
