import RoadMatching.Proofs.Routing.Components

/-!
Around a vertex, from neighbor to neighbor.

The neighbor of an edge is the next edge that leaves the same vertex, and the first one follows the
last. So one comes around the vertex, whichever of its edges one starts with.

* `leaving`: the edges that leave a vertex, in the order of the graph. `map_at?_departures` gives
  their indices.
* `around`: the edge after some steps to the neighbor.
* `neighbor?_leaving`, `around_leaving`: one step leads to the edge in the next place, and so do
  several steps, counted around.
* `around_perm`: **the ring of neighbors**. The steps from an edge visit each edge that leaves its
  source once, and no others, before they are back.
-/

namespace RoadMatching.Graph

variable {α : Type} {g : Graph α}

/-! ### The edges of a vertex -/

/-- The edges that leave a vertex, in order. -/
def leaving (g : Graph α) (vertex : Int) : List (Edge α) :=
  g.edges.toList.filter fun e => e.source == vertex

lemma mem_leaving {vertex : Int} {e : Edge α} :
    e ∈ g.leaving vertex ↔ e ∈ g.edges ∧ e.source = vertex := by
  rw [leaving, List.mem_filter, Array.mem_toList_iff, beq_iff_eq]

/-- Different edges of a vertex have different identifiers. -/
lemma Distinct.nodup_leaving (hg : g.Distinct) (vertex : Int) :
    ((g.leaving vertex).map Edge.id).Nodup :=
  hg.nodup_ids.sublist (List.filter_sublist.map Edge.id)

/-- The departures of a vertex are the indices of the edges that leave it. -/
lemma map_at?_departures (g : Graph α) (vertex : Int) :
    (g.departures vertex).map g.at? = (g.leaving vertex).map some := by
  have hall : (List.range g.size).map g.at? = g.edges.toList.map some := by
    refine List.ext_getElem (by simp [size]) fun i hi hi' => ?_
    rw [List.length_map, Array.length_toList] at hi'
    simp [Graph.at?, hi']
  calc (g.departures vertex).map g.at?
      = ((List.range g.size).map g.at?).filter fun o => o.any fun e => e.source == vertex := by
        rw [List.filter_map]
        rfl
    _ = (g.leaving vertex).map some := by
        rw [hall, List.filter_map]
        rfl

/-! ### Steps to the neighbor -/

/-- The edge that is reached from an edge by some steps to the neighbor. -/
def around (g : Graph α) (e : Edge α) : Nat → Option (Edge α)
  | 0 => some e
  | n + 1 => (g.around e n).bind fun f => g.neighbor? f.id

/-- One step leads to the edge in the next place, and from the last place to the first. -/
lemma neighbor?_leaving (hg : g.Built) (hlinks : g.links.isSome = true) {vertex : Int} {k : Nat}
    {e : Edge α} (he : (g.leaving vertex)[k]? = some e) :
    g.neighbor? e.id = (g.leaving vertex)[(k + 1) % (g.leaving vertex).length]? := by
  have hplace : ∀ n : Nat, ((g.departures vertex)[n]?).map g.at? =
      ((g.leaving vertex)[n]?).map some := fun n => by
    rw [← List.getElem?_map, map_at?_departures, List.getElem?_map]
  have hlength : (g.departures vertex).length = (g.leaving vertex).length := by
    simpa using congrArg List.length (map_at?_departures g vertex)
  obtain ⟨hk, -⟩ := List.getElem?_eq_some_iff.1 he
  have hk' : k < (g.departures vertex).length := hlength ▸ hk
  have hat : g.at? (g.departures vertex)[k] = some e := by
    have := hplace k
    rwa [he, List.getElem?_eq_getElem hk', Option.map_some, Option.map_some,
      Option.some.injEq] at this
  have hsource : e.source = vertex := (mem_leaving.1 (List.mem_of_getElem? he)).2
  have hnext := hplace ((k + 1) % (g.departures vertex).length)
  rw [nextIn_getElem (sorted_departures g vertex) hk', hlength] at hnext
  rw [neighbor?, (indexOf?_eq_some_iff hg.distinct).2 ⟨e, hat, rfl⟩, Option.bind_some,
    hg.neighborIndex?_of_links hlinks hat, hsource, Option.bind_some]
  have hlt : (k + 1) % (g.leaving vertex).length < (g.leaving vertex).length :=
    Nat.mod_lt _ (by omega)
  rw [List.getElem?_eq_getElem hlt] at hnext ⊢
  exact Option.some.inj hnext

/-- Steps lead on by as many places, counted around. -/
lemma around_leaving (hg : g.Built) (hlinks : g.links.isSome = true) {vertex : Int} {k : Nat}
    {e : Edge α} (he : (g.leaving vertex)[k]? = some e) (n : Nat) :
    g.around e n = (g.leaving vertex)[(k + n) % (g.leaving vertex).length]? := by
  obtain ⟨hk, -⟩ := List.getElem?_eq_some_iff.1 he
  induction n with
  | zero => rw [around, Nat.add_zero, Nat.mod_eq_of_lt hk, he]
  | succ n ih =>
    have hlt : (k + n) % (g.leaving vertex).length < (g.leaving vertex).length :=
      Nat.mod_lt _ (by omega)
    rw [List.getElem?_eq_getElem hlt] at ih
    rw [around, ih, Option.bind_some,
      neighbor?_leaving hg hlinks (List.getElem?_eq_getElem hlt), Nat.mod_add_mod, Nat.add_assoc]

/-- **The ring of neighbors**: on a graph whose links have been computed, the steps from an edge to
its neighbor and on visit each edge that leaves the same vertex once, and no others, before they are
back after as many steps as there are such edges; from then on they go around again. -/
theorem around_perm (hg : g.Built) (hconstructed : g.isConstructed = true) {id : Int}
    {e : Edge α} (he : g.get? id = some e) :
    (∀ f, f ∈ g.leaving e.source ↔ g.get? f.id = some f ∧ f.source = e.source) ∧
      ((g.leaving e.source).map Edge.id).Nodup ∧
      ((List.range (g.leaving e.source).length).map (g.around e)).Perm
        ((g.leaving e.source).map some) ∧
      g.around e (g.leaving e.source).length = some e ∧
      ∀ n, g.around e n = g.around e (n % (g.leaving e.source).length) := by
  have hedge : ∀ f, f ∈ g.edges ↔ g.get? f.id = some f := by
    intro f
    rw [get?_eq_some_iff hg.distinct, Array.mem_iff_getElem?]
    exact exists_congr fun i => (and_iff_left rfl).symm
  obtain ⟨i, hi, -⟩ := (get?_eq_some_iff hg.distinct).1 he
  obtain ⟨k, hk⟩ := List.getElem?_of_mem (mem_leaving.2 ⟨Array.mem_of_getElem? hi, rfl⟩)
  obtain ⟨hlt, -⟩ := List.getElem?_eq_some_iff.1 hk
  have hsteps := around_leaving hg (Bool.and_eq_true_iff.1 hconstructed).2 hk
  refine ⟨fun f => by rw [mem_leaving, hedge], hg.distinct.nodup_leaving _, ?_, ?_, fun n => ?_⟩
  · have hrotated : (List.range (g.leaving e.source).length).map (g.around e) =
        ((g.leaving e.source).rotate k).map some := by
      refine List.ext_getElem (by simp) fun n hn hn' => ?_
      rw [List.length_map, List.length_range] at hn
      rw [List.getElem_map, List.getElem_range, List.getElem_map, List.getElem_rotate, hsteps,
        Nat.add_comm k n, List.getElem?_eq_getElem (Nat.mod_lt _ (by omega))]
    rw [hrotated]
    exact ((g.leaving e.source).rotate_perm k).map some
  · rw [hsteps, Nat.add_mod_right, Nat.mod_eq_of_lt hlt, hk]
  · rw [hsteps, hsteps, Nat.add_mod_mod]

/-! ### A crossing -/

/-- A loop at a crossing, two streets from there to another one, and a street back. -/
def crossing : Graph ℚ :=
  (ofList [⟨1, 0, 0, 10⟩, ⟨2, 0, 1, 10⟩, ⟨3, 1, 0, 10⟩, ⟨4, 0, 1, 20⟩]).construct

/-- From the first of the two streets one comes to the second one, and by the loop back to the
first. -/
theorem around_perm_crossing :
    crossing.Built ∧ crossing.isConstructed = true ∧
      crossing.get? 2 = some ⟨2, 0, 1, 10⟩ ∧
      (crossing.leaving 0).map Edge.id = [1, 2, 4] ∧
      ((List.range 3).map (crossing.around ⟨2, 0, 1, 10⟩)).Perm
        ((crossing.leaving 0).map some) ∧
      crossing.around ⟨2, 0, 1, 10⟩ 3 = some ⟨2, 0, 1, 10⟩ := by
  have hbuilt : crossing.Built := (Built.ofList _).construct
  have hconstructed : crossing.isConstructed = true := by decide +kernel
  have hedge : crossing.get? 2 = some ⟨2, 0, 1, 10⟩ := by decide +kernel
  have hids : (crossing.leaving 0).map Edge.id = [1, 2, 4] := by decide +kernel
  have hlength : (crossing.leaving 0).length = 3 := by simpa using congrArg List.length hids
  obtain ⟨-, -, hperm, hback, -⟩ := around_perm hbuilt hconstructed hedge
  rw [hlength] at hperm hback
  exact ⟨hbuilt, hconstructed, hedge, hids, hperm, hback⟩

end RoadMatching.Graph
