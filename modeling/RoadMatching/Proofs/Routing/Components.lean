import RoadMatching.Proofs.Routing.Changes
import RoadMatching.Proofs.Routing.Classes

/-!
The components of a graph.

Components are found by uniting the sets of linked edges, whatever structure keeps the sets. An edge
is linked to its successors and to its neighbor. The edges leaving a vertex are linked by their
neighbors alone, all around the vertex, so two edges are in one component exactly if a chain of
edges leads from the one to the other, each leaving a vertex of the one before or the other way
around.

* `nextIn_getElem`, `eqvGen_of_nextIn`: the next one of each item, and all items of a group by it.
* `componentsBy`, `componentsBy_quickFind`: the components by a structure of sets, and by that of
  the names. `componentsBy_eq`: they are the same by all lawful ones.
* `LinksTo`, `Connected`: one link, and a chain of links in either direction.
* `linksTo_of_mem_pairs`, `eqvGen_of_linksTo`: the links between indices and those between edges,
  one at a time. `eqvGen_iff_connected`: chains of them.
* `components_connected`: **components are the classes of connected edges**, in order.
-/

namespace RoadMatching.Graph

variable {α σ : Type} {g : Graph α}

/-! ### Around a vertex -/

/-- In an ascending group the next one stands in the next place, the first place following the
last. -/
lemma nextIn_getElem {group : List Nat} (hsorted : group.Pairwise (· < ·)) {k : Nat}
    (hk : k < group.length) :
    group[(k + 1) % group.length]? = some (nextIn group group[k]) := by
  have hle : ∀ j (hj : j < group.length), j ≤ k → group[j] ≤ group[k] := by
    intro j hj hjk
    rcases hjk.eq_or_lt with rfl | hlt
    · exact le_rfl
    · exact (List.pairwise_iff_getElem.1 hsorted j k hj hk hlt).le
  rw [nextIn]
  rcases Nat.lt_or_ge (k + 1) group.length with hnext | hlast
  · have hfind : (group.find? fun j => group[k] < j) = some group[k + 1] := by
      refine List.find?_eq_some_iff_getElem.2 ⟨?_, k + 1, hnext, rfl, fun j hj => ?_⟩
      · exact decide_eq_true (List.pairwise_iff_getElem.1 hsorted k (k + 1) hk hnext k.lt_succ_self)
      · simpa using hle j (by omega) (by omega)
    rw [hfind, Nat.mod_eq_of_lt hnext, List.getElem?_eq_getElem hnext]
    rfl
  · have hfind : (group.find? fun j => group[k] < j) = none := by
      refine List.find?_eq_none.2 fun j hj => ?_
      obtain ⟨i, hi, rfl⟩ := List.getElem_of_mem hj
      simpa using hle i hi (by omega)
    have hpos : 0 < group.length := by omega
    rw [hfind, show k + 1 = group.length by omega, Nat.mod_self, Option.none_or,
      List.head?_eq_getElem?, List.getElem?_eq_getElem hpos]
    rfl

/-- In an ascending group each item leads to all others, from one to the next. -/
lemma eqvGen_of_nextIn {group : List Nat} (hsorted : group.Pairwise (· < ·)) {r : Nat → Nat → Prop}
    (h : ∀ i ∈ group, r i (nextIn group i)) {i j : Nat} (hi : i ∈ group) (hj : j ∈ group) :
    Relation.EqvGen r i j := by
  have hpos := List.length_pos_of_mem hi
  have hfirst : ∀ k (hk : k < group.length), Relation.EqvGen r group[0] group[k] := by
    intro k
    induction k with
    | zero => exact fun _ => .refl _
    | succ k ih =>
      intro hk
      have hnext := nextIn_getElem hsorted (show k < group.length by omega)
      rw [Nat.mod_eq_of_lt hk, List.getElem?_eq_getElem hk, Option.some.injEq] at hnext
      refine (ih (by omega)).trans _ _ _ (.rel _ _ ?_)
      rw [hnext]
      exact h _ (List.getElem_mem _)
  obtain ⟨m, hm, rfl⟩ := List.getElem_of_mem hi
  obtain ⟨n, hn, rfl⟩ := List.getElem_of_mem hj
  exact (hfirst m hm).symm.trans _ _ _ (hfirst n hn)

/-! ### Components by a structure of sets -/

/-- The indices that are linked, in the order in which their sets are united. -/
def pairs (g : Graph α) : List (Nat × Nat) :=
  (List.range g.size).flatMap fun i => (g.linkedTo i).map fun j => (i, j)

/-- The name of the set of an edge, given with its index, after all sets of linked edges are
united. -/
def nameBy (g : Graph α) (sets : DisjointSets σ) (edge : Int × Nat) : Nat :=
  sets.find (sets.after g.size g.pairs) edge.2

/-- The identifiers of linked edges, class by class, by a structure of disjoint sets. -/
def componentsBy (g : Graph α) (sets : DisjointSets σ) : List (List Int) :=
  (grouped (g.nameBy sets) g.ids.zipIdx).map (List.map Prod.fst)

lemma mem_pairs {i j : Nat} : (i, j) ∈ g.pairs ↔ i < g.size ∧ j ∈ g.linkedTo i := by
  simp [pairs]

lemma classes_eq_after (g : Graph α) :
    g.classes = DisjointSets.quickFind.after g.size g.pairs := by
  rw [classes, DisjointSets.after, pairs, List.foldl_flatMap]
  simp only [List.foldl_map]
  rfl

/-- The components are those by the names in a list. -/
lemma componentsBy_quickFind (g : Graph α) :
    g.componentsBy DisjointSets.quickFind = g.components := by
  have hlength : g.classes.length = g.ids.length := by
    rw [classes_eq_after, DisjointSets.length_after_quickFind, length_ids]
  have hnames : g.ids.zipIdx.map (g.nameBy DisjointSets.quickFind) = g.classes := by
    refine List.ext_getElem (by simp [hlength]) fun i hi hi' => ?_
    rw [List.getElem_map, List.getElem_zipIdx, nameBy, ← classes_eq_after,
      DisjointSets.find_quickFind, zero_add, List.getElem?_eq_getElem hi', Option.getD_some]
  have hnamed : g.classes.zip g.ids =
      g.ids.zipIdx.map fun edge => (g.nameBy DisjointSets.quickFind edge, edge.1) := by
    rw [← List.zip_map', hnames, List.zipIdx_map_fst]
  calc g.componentsBy DisjointSets.quickFind
      = g.classes.eraseDups.map fun name =>
          (g.ids.zipIdx.filter fun edge =>
            g.nameBy DisjointSets.quickFind edge == name).map Prod.fst := by
        rw [componentsBy, grouped, hnames, List.map_map]
        rfl
    _ = g.classes.eraseDups.map fun name =>
          ((g.classes.zip g.ids).filter fun c => c.1 == name).map Prod.snd := by
        simp only [hnamed, List.filter_map, List.map_map]
        rfl

/-! ### Chains of links -/

/-- One edge starts where another one ends or starts. -/
def LinksTo (g : Graph α) (a b : Int) : Prop :=
  ∃ e f, g.get? a = some e ∧ g.get? b = some f ∧ (f.source = e.target ∨ f.source = e.source)

/-- A chain of edges leads from one edge to another one, each linked to the next or the next to
it. -/
def Connected (g : Graph α) : Int → Int → Prop :=
  Relation.ReflTransGen (Relation.SymmGen g.LinksTo)

/-- There are no links where none have been computed. -/
lemma pairs_eq_nil (h : g.isConstructed = false) : g.pairs = [] := by
  rw [isConstructed, Bool.and_eq_false_iff, Bool.not_eq_false'] at h
  rcases h with hempty | hnone
  · rw [pairs, size, Array.isEmpty_iff.1 hempty]
    rfl
  · have hunlinked := isUnlinked_of_links (Option.isNone_iff_eq_none.1 (by simpa using hnone))
    simp [pairs, linkedTo, hunlinked.successors, hunlinked.neighbor]

/-- An edge is linked to all edges that leave its target, and to the next one that leaves its
source. -/
lemma mem_linkedTo (hg : g.Built) (hlinks : g.links.isSome = true) {i j : Nat} {e : Edge α}
    (he : g.at? i = some e) :
    j ∈ g.linkedTo i ↔ j ∈ g.departures e.target ∨ j = nextIn (g.departures e.source) i := by
  rw [linkedTo, hg.successorIndices_of_links hlinks he, hg.neighborIndex?_of_links hlinks he,
    List.mem_append, Option.toList_some, List.mem_singleton]

/-- Linked indices are those of linked edges. -/
lemma linksTo_of_mem_pairs (hg : g.Built) {i j : Nat} (h : (i, j) ∈ g.pairs) :
    ∃ a b, g.ids[i]? = some a ∧ g.ids[j]? = some b ∧ g.LinksTo a b := by
  have hconstructed : g.isConstructed = true := by
    by_contra hnot
    rw [pairs_eq_nil (Bool.not_eq_true _ ▸ hnot)] at h
    cases h
  obtain ⟨-, hlinks⟩ := Bool.and_eq_true_iff.1 hconstructed
  obtain ⟨hi, hj⟩ := mem_pairs.1 h
  have he : g.at? i = some g.edges[i] := Array.getElem?_eq_getElem hi
  have hvertex : ∃ f, g.at? j = some f ∧
      (f.source = g.edges[i].target ∨ f.source = g.edges[i].source) := by
    rcases (mem_linkedTo hg hlinks he).1 hj with hsuccessor | rfl
    · obtain ⟨f, hf, hsource⟩ := mem_departures.1 hsuccessor
      exact ⟨f, hf, .inl hsource⟩
    · obtain ⟨f, hf, hsource⟩ := mem_departures.1 (nextIn_mem (mem_departures.2 ⟨_, he, rfl⟩))
      exact ⟨f, hf, .inr hsource⟩
  obtain ⟨f, hf, hvertex⟩ := hvertex
  exact ⟨_, _, getElem?_ids_of_at? he, getElem?_ids_of_at? hf, _, f,
    (get?_eq_some_iff hg.distinct).2 ⟨i, he, rfl⟩, (get?_eq_some_iff hg.distinct).2 ⟨j, hf, rfl⟩,
    hvertex⟩

/-- Linked edges have equivalent indices: to its successors an edge is linked at once, and to the
other edges leaving its source all around the vertex. -/
lemma eqvGen_of_linksTo (hg : g.Built) (hlinks : g.links.isSome = true) {a b : Int}
    (h : g.LinksTo a b) :
    ∃ i j, g.ids[i]? = some a ∧ g.ids[j]? = some b ∧
      Relation.EqvGen (fun k l => (k, l) ∈ g.pairs) i j := by
  have hpair : ∀ {k l : Nat} {d : Edge α}, g.at? k = some d →
      l ∈ g.departures d.target ∨ l = nextIn (g.departures d.source) k → (k, l) ∈ g.pairs :=
    fun hd h => mem_pairs.2 ⟨lt_size_of_at? hd, (mem_linkedTo hg hlinks hd).2 h⟩
  obtain ⟨e, f, ha, hb, hvertex⟩ := h
  obtain ⟨i, he, rfl⟩ := (get?_eq_some_iff hg.distinct).1 ha
  obtain ⟨j, hf, rfl⟩ := (get?_eq_some_iff hg.distinct).1 hb
  refine ⟨i, j, getElem?_ids_of_at? he, getElem?_ids_of_at? hf, ?_⟩
  rcases hvertex with hsuccessor | hneighbor
  · exact .rel i j (hpair he (.inl (mem_departures.2 ⟨f, hf, hsuccessor⟩)))
  · refine eqvGen_of_nextIn (sorted_departures g e.source) (fun k hk => ?_)
      (mem_departures.2 ⟨e, he, rfl⟩) (mem_departures.2 ⟨f, hf, hneighbor⟩)
    obtain ⟨d, hd, hsource⟩ := mem_departures.1 hk
    exact hpair hd (.inr (by rw [hsource]))

/-- Indices are equivalent if a chain of links leads from edge to edge. -/
lemma eqvGen_iff_connected (hg : g.Built) (hlinks : g.links.isSome = true) {i j : Nat} {a b : Int}
    (ha : g.ids[i]? = some a) (hb : g.ids[j]? = some b) :
    Relation.EqvGen (fun k l => (k, l) ∈ g.pairs) i j ↔ g.Connected a b := by
  rw [Connected, Relation.EqvGen.reflTransGen_symmGen]
  constructor
  · refine eqvGen_transport (R := fun i a => g.ids[i]? = some a) ?_ ?_ ha hb
    · intro k c d hc hd
      exact Option.some.inj (hc.symm.trans hd)
    · intro k l hpair
      obtain ⟨c, d, hc, hd, hlink⟩ := linksTo_of_mem_pairs hg hpair
      exact ⟨c, d, hc, hd, .rel c d hlink⟩
  · refine eqvGen_transport (R := fun a i => g.ids[i]? = some a) ?_ ?_ ha hb
    · intro c k l hk hl
      rw [getElem?_ids_iff hg.distinct] at hk hl
      exact Option.some.inj (hk.symm.trans hl)
    · exact eqvGen_of_linksTo hg hlinks

/-! ### Components -/

variable {sets : DisjointSets σ}

/-- Edges have one name if their indices are equivalent. -/
lemma nameBy_eq_iff (hsets : sets.IsLawful) (hg : g.Built) {edge other : Int × Nat}
    (hedge : edge ∈ g.ids.zipIdx) (hother : other ∈ g.ids.zipIdx) :
    g.nameBy sets edge = g.nameBy sets other ↔
      Relation.EqvGen (fun k l => (k, l) ∈ g.pairs) edge.2 other.2 := by
  have hlt : ∀ {i : Nat} {a : Int}, g.ids[i]? = some a → i < g.size := fun h => by
    rw [← length_ids]
    exact (List.getElem?_eq_some_iff.1 h).1
  rw [List.mem_zipIdx_iff_getElem?] at hedge hother
  refine hsets g.size g.pairs (fun pair hpair => ?_) _ (hlt hedge) _ (hlt hother)
  obtain ⟨a, b, ha, hb, -⟩ := linksTo_of_mem_pairs hg hpair
  exact ⟨hlt ha, hlt hb⟩

/-- Whatever structure keeps the sets, the components are the same. -/
lemma componentsBy_eq (hsets : sets.IsLawful) (hg : g.Built) :
    g.componentsBy sets = g.components := by
  rw [← componentsBy_quickFind, componentsBy, componentsBy]
  refine congrArg _ (grouped_congr fun edge hedge other hother => ?_)
  rw [nameBy_eq_iff hsets hg hedge hother,
    nameBy_eq_iff DisjointSets.isLawful_quickFind hg hedge hother]

/-- A component is a group of edges, each given with its index. -/
lemma mem_components {c : List Int} :
    c ∈ g.components ↔
      ∃ group ∈ grouped (g.nameBy DisjointSets.quickFind) g.ids.zipIdx, group.map Prod.fst = c := by
  rw [← componentsBy_quickFind, componentsBy, List.mem_map]

/-- Edges are in one component if their indices are equivalent. -/
lemma together_components (hg : g.Built) {i j : Nat} {a b : Int} (ha : g.ids[i]? = some a)
    (hb : g.ids[j]? = some b) :
    (∃ c ∈ g.components, a ∈ c ∧ b ∈ c) ↔ Relation.EqvGen (fun k l => (k, l) ∈ g.pairs) i j := by
  have hindex : ∀ {edge : Int × Nat} {k : Nat}, edge ∈ g.ids.zipIdx → g.ids[k]? = some edge.1 →
      edge.2 = k := by
    intro edge k hedge hk
    rw [List.mem_zipIdx_iff_getElem?, getElem?_ids_iff hg.distinct] at hedge
    rw [getElem?_ids_iff hg.distinct] at hk
    exact Option.some.inj (hedge.symm.trans hk)
  have hmem : (a, i) ∈ g.ids.zipIdx := List.mem_zipIdx_iff_getElem?.2 ha
  have hmem' : (b, j) ∈ g.ids.zipIdx := List.mem_zipIdx_iff_getElem?.2 hb
  refine Iff.trans ?_ (nameBy_eq_iff DisjointSets.isLawful_quickFind hg hmem hmem')
  rw [← together_iff hmem hmem']
  constructor
  · rintro ⟨c, hc, hac, hbc⟩
    obtain ⟨group, hgroup, rfl⟩ := mem_components.1 hc
    obtain ⟨edge, hedge, rfl⟩ := List.mem_map.1 hac
    obtain ⟨other, hother, rfl⟩ := List.mem_map.1 hbc
    have hsublist := sublist_of_mem_grouped hgroup
    obtain rfl := hindex (hsublist.subset hedge) ha
    obtain rfl := hindex (hsublist.subset hother) hb
    exact ⟨group, hgroup, hedge, hother⟩
  · rintro ⟨group, hgroup, hedge, hother⟩
    exact ⟨_, mem_components.2 ⟨group, hgroup, rfl⟩, List.mem_map_of_mem hedge,
      List.mem_map_of_mem hother⟩

/-- Every edge is in one component. -/
lemma perm_flatten_components (g : Graph α) : g.components.flatten.Perm g.ids := by
  rw [← componentsBy_quickFind, componentsBy, ← List.map_flatten]
  have hperm := (perm_flatten_grouped (g.nameBy DisjointSets.quickFind) g.ids.zipIdx).map Prod.fst
  rwa [List.zipIdx_map_fst] at hperm

/-- A component has an edge. -/
lemma nil_notMem_components (g : Graph α) : [] ∉ g.components := by
  intro h
  obtain ⟨group, hgroup, hnil⟩ := mem_components.1 h
  rw [List.map_eq_nil_iff.1 hnil] at hgroup
  exact nil_notMem_grouped _ hgroup

/-- The edges of a component are in their order. -/
lemma sublist_of_mem_components {c : List Int} (hc : c ∈ g.components) : c.Sublist g.ids := by
  obtain ⟨group, hgroup, rfl⟩ := mem_components.1 hc
  have hsublist := (sublist_of_mem_grouped hgroup).map Prod.fst
  rwa [List.zipIdx_map_fst] at hsublist

/-- The components are in the order of their first edges. -/
lemma heads_components (g : Graph α) : (g.components.filterMap List.head?).Sublist g.ids := by
  have hheads := (heads_grouped (g.nameBy DisjointSets.quickFind) g.ids.zipIdx).map Prod.fst
  rw [List.zipIdx_map_fst, List.map_filterMap] at hheads
  simp only [← componentsBy_quickFind, componentsBy, List.filterMap_map, Function.comp_def,
    List.head?_map]
  exact hheads

/-- Without links every edge is alone. -/
lemma components_eq_map_singleton (h : g.isConstructed = false) :
    g.components = g.ids.map fun a => [a] := by
  have hname : ∀ edge ∈ g.ids.zipIdx, g.nameBy DisjointSets.quickFind edge = edge.2 := by
    intro edge hedge
    obtain ⟨hlt, -⟩ := List.getElem?_eq_some_iff.1 (List.mem_zipIdx_iff_getElem?.1 hedge)
    rw [length_ids] at hlt
    simp [nameBy, pairs_eq_nil h, DisjointSets.after, DisjointSets.quickFind, hlt]
  have hapart : g.ids.zipIdx.Pairwise fun edge other =>
      g.nameBy DisjointSets.quickFind edge ≠ g.nameBy DisjointSets.quickFind other := by
    have hnodup : (g.ids.zipIdx.map Prod.snd).Nodup := by
      rw [List.zipIdx_map_snd]
      exact List.nodup_range'
    refine (List.pairwise_map.1 hnodup).imp_of_mem fun {edge other} hedge hother hne => ?_
    rwa [hname edge hedge, hname other hother]
  calc g.components
      = (g.ids.zipIdx.map fun edge => [edge]).map (List.map Prod.fst) := by
        rw [← componentsBy_quickFind, componentsBy, grouped_eq_map_singleton hapart]
    _ = (g.ids.zipIdx.map Prod.fst).map fun a => [a] := by
        rw [List.map_map, List.map_map]
        rfl
    _ = g.ids.map fun a => [a] := by rw [List.zipIdx_map_fst]

/-- **Components are the classes of connected edges**. They are the same whatever structure keeps
the sets. Every edge is in exactly one component. Once the links are computed, two edges are
together exactly if a chain of links leads from the one to the other, and else every edge is alone.
The edges of a component are in the order of the graph, and so are the components by their first
edges. -/
theorem components_connected (hsets : sets.IsLawful) (hg : g.Built) :
    g.componentsBy sets = g.components ∧
      g.components.flatten.Perm g.ids ∧ g.components.flatten.Nodup ∧ [] ∉ g.components ∧
      (g.isConstructed = true → ∀ a ∈ g.ids, ∀ b ∈ g.ids,
        ((∃ c ∈ g.components, a ∈ c ∧ b ∈ c) ↔ g.Connected a b)) ∧
      (∀ c ∈ g.components, c.Sublist g.ids) ∧
      (g.components.filterMap List.head?).Sublist g.ids ∧
      (g.isConstructed = false → g.components = g.ids.map fun a => [a]) := by
  have hperm := perm_flatten_components g
  refine ⟨componentsBy_eq hsets hg, hperm, hperm.nodup_iff.2 hg.distinct.nodup_ids,
    nil_notMem_components g, fun hconstructed a ha b hb => ?_, fun _ => sublist_of_mem_components,
    heads_components g, components_eq_map_singleton⟩
  obtain ⟨i, hi⟩ := List.getElem?_of_mem ha
  obtain ⟨j, hj⟩ := List.getElem?_of_mem hb
  rw [together_components hg hi hj]
  exact eqvGen_iff_connected hg (Bool.and_eq_true_iff.1 hconstructed).2 hi hj

/-! ### Two components -/

/-- Two streets from one crossing, a street that leads there, and a street there and back
elsewhere. -/
def islands : Graph ℚ :=
  (ofList [⟨1, 0, 1, 10⟩, ⟨2, 7, 8, 10⟩, ⟨3, 5, 0, 10⟩, ⟨4, 8, 7, 10⟩, ⟨5, 5, 9, 10⟩]).construct

/-- The edge that leads to another one and starts with a third one holds them together. -/
theorem components_connected_islands :
    DisjointSets.quickFind.IsLawful ∧ islands.Built ∧ islands.isConstructed = true ∧
      islands.components = [[1, 3, 5], [2, 4]] ∧ islands.Connected 1 5 ∧
      ¬ islands.Connected 1 2 ∧ islands.deconstruct.isConstructed = false ∧
      islands.deconstruct.components = [[1], [2], [3], [4], [5]] := by
  have hbuilt : islands.Built := (Built.ofList _).construct
  have hconstructed : islands.isConstructed = true := by decide +kernel
  have hcomponents : islands.components = [[1, 3, 5], [2, 4]] := by decide +kernel
  obtain ⟨-, -, -, -, hconnected, -⟩ :=
    components_connected DisjointSets.isLawful_quickFind hbuilt
  obtain ⟨-, -, -, -, -, -, -, halone⟩ :=
    components_connected DisjointSets.isLawful_quickFind hbuilt.deconstruct
  have hdropped : islands.deconstruct.isConstructed = false := by decide +kernel
  have hids : islands.ids = [1, 2, 3, 4, 5] := by decide +kernel
  specialize hconnected hconstructed
  rw [hids, hcomponents] at hconnected
  specialize halone hdropped
  rw [show islands.deconstruct.ids = islands.ids from rfl, hids] at halone
  refine ⟨DisjointSets.isLawful_quickFind, hbuilt, hconstructed, hcomponents,
    (hconnected 1 (by decide) 5 (by decide)).1 (by decide), fun h => ?_, hdropped, halone⟩
  exact absurd ((hconnected 1 (by decide) 2 (by decide)).2 h) (by decide)

end RoadMatching.Graph
