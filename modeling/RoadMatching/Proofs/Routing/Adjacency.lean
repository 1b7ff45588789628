import Mathlib.Tactic
import RoadMatching.Graph.Path

/-!
Edges, their indices and their links.

A graph that is built up by adding, removing and linking edges holds one edge for each identifier,
and its links are those of its present edges or none.

* `Graph.Built`: the graphs that can be built.
* `Graph.Distinct`: no two indices hold edges of one identifier. `Built.distinct` is the invariant,
  and `indexOf?_eq_some_iff` and `get?_eq_some_iff` read an edge off its identifier by it.
* `Built.nodup_successorIndices`, `Built.length_successorIndices_le`: a link is not repeated, so an
  edge has no more successors than the graph has edges.
* `isSuccessor_iff`: the links between identifiers are those between indices.
* `getLast?_append_tail`: the end of two lists that share an item.
* `isLinked_iff_isChain`, `isLinked_concat`: the links along a list of edges.
* `adjacent_of_isSuccessor`: an edge is linked to edges that leave the vertex where it ends.
-/

namespace RoadMatching

namespace Graph

variable {α : Type} {g : Graph α}

/-! ### Building a graph -/

/-- The graphs built from the empty one. -/
inductive Built : Graph α → Prop
  | empty : Built empty
  | add {g : Graph α} (e : Edge α) : Built g → Built (g.add e)
  | remove {g : Graph α} (id : Int) : Built g → Built (g.remove id)
  | construct {g : Graph α} : Built g → Built g.construct
  | deconstruct {g : Graph α} : Built g → Built g.deconstruct

/-- Adding edges to a graph that is built yields one. -/
lemma Built.foldl_add {g : Graph α} (hg : Built g) (edges : List (Edge α)) :
    Built (edges.foldl Graph.add g) :=
  List.foldlRecOn edges Graph.add hg fun _ h e _ => h.add e

/-- The graph of a list of edges is built. -/
lemma Built.ofList (edges : List (Edge α)) : Built (ofList edges) :=
  Built.empty.foldl_add edges

/-- Different indices hold edges of different identifiers. -/
def Distinct (g : Graph α) : Prop :=
  ∀ i j e f, g.at? i = some e → g.at? j = some f → e.id = f.id → i = j

lemma lt_size_of_at? {i : Nat} {e : Edge α} (h : g.at? i = some e) : i < g.size := by
  obtain ⟨hi, -⟩ := Array.getElem?_eq_some_iff.1 h
  exact hi

/-- An index with its edge, found by the identifier. -/
lemma at?_of_indexOf? {id : Int} {i : Nat} (h : g.indexOf? id = some i) :
    ∃ e, g.at? i = some e ∧ e.id = id := by
  obtain ⟨hi, hp, -⟩ := Array.findIdx?_eq_some_iff_getElem.1 h
  exact ⟨g.edges[i], Array.getElem?_eq_getElem hi, by simpa using hp⟩

/-- An edge of the graph is found by its identifier. -/
lemma exists_indexOf? {i : Nat} {e : Edge α} (h : g.at? i = some e) :
    ∃ j, g.indexOf? e.id = some j := by
  cases hf : g.indexOf? e.id with
  | some j => exact ⟨j, rfl⟩
  | none =>
    have hall := Array.findIdx?_eq_none_iff.1 hf e (Array.mem_of_getElem? h)
    simp at hall

/-- The identifier of an edge finds its index. -/
lemma indexOf?_eq_some_iff (hg : g.Distinct) {id : Int} {i : Nat} :
    g.indexOf? id = some i ↔ ∃ e, g.at? i = some e ∧ e.id = id := by
  refine ⟨at?_of_indexOf?, ?_⟩
  rintro ⟨e, he, rfl⟩
  obtain ⟨j, hj⟩ := exists_indexOf? he
  obtain ⟨f, hf, hid⟩ := at?_of_indexOf? hj
  rw [hg i j e f he hf hid.symm, hj]

/-- The identifier of an edge finds the edge. -/
lemma get?_eq_some_iff (hg : g.Distinct) {id : Int} {e : Edge α} :
    g.get? id = some e ↔ ∃ i, g.at? i = some e ∧ e.id = id := by
  rw [get?, Option.bind_eq_some_iff]
  constructor
  · rintro ⟨i, hi, he⟩
    obtain ⟨f, hf, hid⟩ := at?_of_indexOf? hi
    rw [he, Option.some.injEq] at hf
    exact ⟨i, he, hf ▸ hid⟩
  · rintro ⟨i, he, hid⟩
    exact ⟨i, (indexOf?_eq_some_iff hg).2 ⟨e, he, hid⟩, he⟩

/-- The edge that an index found by an identifier holds. -/
lemma get?_of_indexOf? {id : Int} {i : Nat} {e : Edge α} (hi : g.indexOf? id = some i)
    (he : g.at? i = some e) : g.get? id = some e := by
  rw [get?, hi, Option.bind_some, he]

lemma get?_isSome_iff {id : Int} : (g.get? id).isSome ↔ ∃ i, g.indexOf? id = some i := by
  constructor
  · intro h
    obtain ⟨e, he⟩ := Option.isSome_iff_exists.1 h
    obtain ⟨i, hi, -⟩ := Option.bind_eq_some_iff.1 he
    exact ⟨i, hi⟩
  · rintro ⟨i, hi⟩
    obtain ⟨e, he, -⟩ := at?_of_indexOf? hi
    rw [get?_of_indexOf? hi he, Option.isSome_some]

/-- Adding an edge keeps the identifiers apart: it takes the place of the edge of its identifier, or
a new one. -/
lemma Distinct.add (hg : g.Distinct) (e : Edge α) : (g.add e).Distinct := by
  intro i j a b ha hb hab
  cases hf : g.indexOf? e.id with
  | some k =>
    obtain ⟨old, hold, hid⟩ := at?_of_indexOf? hf
    -- at every index stands an edge of the identifier that stood there before
    have before : ∀ n c, (g.add e).at? n = some c → ∃ d, g.at? n = some d ∧ d.id = c.id := by
      intro n c hc
      simp only [Graph.at?, Graph.add, hf, Array.getElem?_setIfInBounds] at hc
      split at hc
      · next hkn =>
        subst hkn
        split at hc
        · cases hc
          exact ⟨old, hold, hid⟩
        · cases hc
      · exact ⟨c, hc, rfl⟩
    obtain ⟨a', ha', haid⟩ := before i a ha
    obtain ⟨b', hb', hbid⟩ := before j b hb
    exact hg i j a' b' ha' hb' (by rw [haid, hbid, hab])
  | none =>
    have fresh : ∀ n c, g.at? n = some c → c.id ≠ e.id := by
      intro n c hc h
      obtain ⟨m, hm⟩ := exists_indexOf? hc
      rw [h, hf] at hm
      cases hm
    simp only [Graph.at?, Graph.add, hf, Array.getElem?_push] at ha hb
    split at ha <;> split at hb
    · omega
    · cases ha
      exact absurd hab.symm (fresh j b hb)
    · cases hb
      exact absurd hab (fresh i a ha)
    · exact hg i j a b ha hb hab

/-- Removing an edge keeps the identifiers apart. -/
lemma Distinct.remove (hg : g.Distinct) (id : Int) : (g.remove id).Distinct := by
  intro i j a b ha hb hab
  cases hf : g.indexOf? id with
  | none =>
    simp only [Graph.at?, Graph.remove, hf] at ha hb
    exact hg i j a b ha hb hab
  | some k =>
    simp only [Graph.at?, Graph.remove, hf, ← Array.getElem?_toList,
      Array.toList_eraseIdxIfInBounds, List.getElem?_eraseIdx] at ha hb
    have at_iff : ∀ n c, g.edges.toList[n]? = some c → g.at? n = some c := by
      intro n c h
      rwa [Array.getElem?_toList] at h
    split at ha <;> split at hb
    · exact hg i j a b (at_iff _ _ ha) (at_iff _ _ hb) hab
    · have := hg i (j + 1) a b (at_iff _ _ ha) (at_iff _ _ hb) hab
      omega
    · have := hg (i + 1) j a b (at_iff _ _ ha) (at_iff _ _ hb) hab
      omega
    · have := hg (i + 1) (j + 1) a b (at_iff _ _ ha) (at_iff _ _ hb) hab
      omega

/-- The invariant of building a graph: identifiers are distinct. -/
lemma Built.distinct (hg : Built g) : g.Distinct := by
  induction hg with
  | empty =>
    intro i j e f he
    simp [Graph.at?, Graph.empty] at he
  | add e _ ih => exact ih.add e
  | remove id _ ih => exact ih.remove id
  | construct _ ih => exact ih
  | deconstruct _ ih => exact ih

/-- The invariant of building a graph: the links are those of the present edges. -/
lemma Built.links (hg : Built g) : g.links = none ∨ g.links = g.construct.links := by
  induction hg with
  | empty => exact .inl rfl
  | add e _ _ => exact .inl rfl
  | remove id _ _ => exact .inl rfl
  | construct _ _ => exact .inr rfl
  | deconstruct _ _ => exact .inl rfl

/-! ### Successors -/

lemma nodup_departures (g : Graph α) (vertex : Int) : (g.departures vertex).Nodup :=
  List.nodup_range.filter _

/-- The successors of an edge of a built graph: none, or the departures at its target. -/
lemma Built.successorIndices_eq (hg : Built g) (i : Nat) :
    g.successorIndices i = [] ∨
      ∃ e, g.at? i = some e ∧ g.successorIndices i = g.departures e.target := by
  rcases hg.links with h | h
  · exact .inl (by rw [successorIndices, h]; rfl)
  · cases he : g.at? i with
    | none =>
      refine .inl ?_
      rw [Graph.at?] at he
      rw [successorIndices, h]
      simp [Graph.construct, he]
    | some e =>
      refine .inr ⟨e, rfl, ?_⟩
      rw [Graph.at?] at he
      rw [successorIndices, h]
      simp [Graph.construct, he]

/-- A successor is listed once. -/
lemma Built.nodup_successorIndices (hg : Built g) (i : Nat) : (g.successorIndices i).Nodup := by
  rcases hg.successorIndices_eq i with h | ⟨e, -, h⟩
  · rw [h]
    exact List.nodup_nil
  · rw [h]
    exact nodup_departures g e.target

/-- An edge has no more successors than there are edges. -/
lemma Built.length_successorIndices_le (hg : Built g) (i : Nat) :
    (g.successorIndices i).length ≤ g.size := by
  rcases hg.successorIndices_eq i with h | ⟨e, -, h⟩
  · rw [h]
    exact Nat.zero_le _
  · rw [h]
    refine (List.length_filter_le _ _).trans ?_
    rw [List.length_range]

/-- The links between identifiers are those between the indices of their edges. -/
lemma isSuccessor_iff (hg : g.Distinct) {a b : Int} :
    g.isSuccessor a b = true ↔
      ∃ i j, g.indexOf? a = some i ∧ j ∈ g.successorIndices i ∧ g.indexOf? b = some j := by
  simp only [isSuccessor, successors, List.any_eq_true, beq_iff_eq]
  constructor
  · rintro ⟨f, hf, rfl⟩
    cases ha : g.indexOf? a with
    | none => simp [ha] at hf
    | some i =>
      rw [ha] at hf
      obtain ⟨j, hj, hjf⟩ := List.mem_filterMap.1 hf
      exact ⟨i, j, rfl, hj, (indexOf?_eq_some_iff hg).2 ⟨f, hjf, rfl⟩⟩
  · rintro ⟨i, j, ha, hj, hb⟩
    obtain ⟨f, hf, hid⟩ := at?_of_indexOf? hb
    rw [ha]
    exact ⟨f, List.mem_filterMap.2 ⟨j, hj, hf⟩, hid⟩

end Graph

/-! ### Lists of linked edges -/

/-- Two lists that share an item end where the second one ends. -/
lemma getLast?_append_tail {β : Type} {front rest : List β} (h : front.getLast? = rest.head?) :
    (front ++ rest.tail).getLast? = rest.getLast? := by
  cases rest with
  | nil => rw [List.tail_nil, List.append_nil, h, List.head?_nil, List.getLast?_nil]
  | cons b rest =>
    cases rest with
    | nil => rw [List.tail_cons, List.append_nil, h, List.head?_cons, List.getLast?_singleton]
    | cons c rest =>
      rw [List.tail_cons, List.getLast?_append_of_ne_nil _ (List.cons_ne_nil c rest),
        List.getLast?_cons_cons]

namespace Path

variable {α : Type} {g : Graph α}

lemma isLinked_iff_isChain {ids : List Int} :
    isLinked g ids = true ↔ ids.IsChain fun a b => g.isSuccessor a b = true := by
  induction ids with
  | nil => simp [isLinked]
  | cons a rest ih =>
    cases rest with
    | nil => simp [isLinked]
    | cons b rest => simp [isLinked, ih]

/-- A linked list goes on with the successors of its last edge. -/
lemma isLinked_concat {ids : List Int} {a b : Int} (ha : ids.getLast? = some a) :
    isLinked g (ids ++ [b]) = true ↔ isLinked g ids = true ∧ g.isSuccessor a b = true := by
  rw [isLinked_iff_isChain, isLinked_iff_isChain, List.isChain_append]
  simp [ha]

/-- Two edges of the graph are adjacent if the one ends where the other starts. -/
lemma adjacent_iff {a b : Int} :
    adjacent g a b = true ↔
      ∃ e f, g.get? a = some e ∧ g.get? b = some f ∧ e.target = f.source := by
  rw [adjacent]
  split
  · next e f ha hb => simp [ha, hb]
  · next hnone =>
    refine iff_of_false Bool.false_ne_true ?_
    rintro ⟨e, f, ha, hb, -⟩
    exact hnone e f ha hb

/-- A link leads to an adjacent edge. -/
lemma adjacent_of_isSuccessor (hg : g.Built) {a b : Int} (h : g.isSuccessor a b = true) :
    adjacent g a b = true := by
  obtain ⟨i, j, ha, hj, hb⟩ := (Graph.isSuccessor_iff hg.distinct).1 h
  rcases hg.successorIndices_eq i with hnone | ⟨e, he, hsuccessors⟩
  · rw [hnone] at hj
    cases hj
  · rw [hsuccessors] at hj
    obtain ⟨f, hf, hsource⟩ := Graph.mem_departures.1 hj
    exact adjacent_iff.2
      ⟨e, f, Graph.get?_of_indexOf? ha he, Graph.get?_of_indexOf? hb hf, hsource.symm⟩

end Path

end RoadMatching
