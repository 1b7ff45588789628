/-!
Directed multigraphs whose edges carry labels.

Edges are kept in the order in which they were added and are addressed by identifier or by index.
Two edges are linked where the one ends and the other starts. The links are computed by `construct`
for the edges of that moment, and every change of the edges drops them.

* `departures`: the edges leaving a vertex; `mem_departures` says which these are.
* `construct`: the successors of an edge are the departures at its target, and its neighbor is the
  next departure at its own source, the first one following the last.
* `components`: the classes of edges joined by chains of links, in either direction.
-/

namespace RoadMatching

/-- A directed edge between two vertices, with a label. -/
structure Edge (α : Type) where
  id : Int
  source : Int
  target : Int
  label : α
  deriving Repr, DecidableEq

/-- The links of a graph, by the index of the edge. -/
structure Links where
  successors : Array (List Nat)
  neighbors : Array Nat
  deriving Repr, DecidableEq

/-- A directed multigraph, with the links of its edges if these have been computed. -/
structure Graph (α : Type) where
  edges : Array (Edge α)
  links : Option Links
  deriving Repr, DecidableEq

namespace Graph

variable {α : Type}

/-! ### Edges -/

/-- The graph without edges. -/
def empty : Graph α := ⟨#[], none⟩

/-- The number of edges. -/
def size (g : Graph α) : Nat := g.edges.size

/-- The index of an edge. -/
def indexOf? (g : Graph α) (id : Int) : Option Nat := g.edges.findIdx? fun e => e.id == id

/-- The edge at an index. -/
def at? (g : Graph α) (index : Nat) : Option (Edge α) := g.edges[index]?

/-- The edge of an identifier. -/
def get? (g : Graph α) (id : Int) : Option (Edge α) := (g.indexOf? id).bind g.at?

/-- Adds an edge at the end, or in place of the edge with its identifier. -/
def add (g : Graph α) (e : Edge α) : Graph α where
  edges :=
    match g.indexOf? e.id with
    | some i => g.edges.setIfInBounds i e
    | none => g.edges.push e
  links := none

/-- The graph of the edges; a later edge replaces an earlier one of its identifier. -/
def ofList (edges : List (Edge α)) : Graph α := edges.foldl add empty

/-- Removes the edge of the identifier; the others keep their order. -/
def remove (g : Graph α) (id : Int) : Graph α where
  edges :=
    match g.indexOf? id with
    | some i => g.edges.eraseIdxIfInBounds i
    | none => g.edges
  links := none

/-! ### Links -/

/-- Whether the graph has edges whose links have been computed. -/
def isConstructed (g : Graph α) : Bool := !g.edges.isEmpty && g.links.isSome

/-- The indices of the edges leaving a vertex, in order. -/
def departures (g : Graph α) (vertex : Int) : List Nat :=
  (List.range g.size).filter fun i => (g.at? i).any fun e => e.source == vertex

/-- The edges leaving a vertex are those whose source it is. -/
theorem mem_departures {g : Graph α} {vertex : Int} {i : Nat} :
    i ∈ g.departures vertex ↔ ∃ e, g.at? i = some e ∧ e.source = vertex := by
  simp only [departures, List.mem_filter, List.mem_range, Option.any_eq_true, beq_iff_eq]
  constructor
  · rintro ⟨_, e, he, hs⟩
    exact ⟨e, he, hs⟩
  · rintro ⟨e, he, hs⟩
    refine ⟨?_, e, he, hs⟩
    obtain ⟨hi, _⟩ := Array.getElem?_eq_some_iff.1 he
    exact hi

/-- The index after `i` in a list, the first one following the last. -/
def nextIn (group : List Nat) (i : Nat) : Nat :=
  ((group.find? fun j => i < j).or group.head?).getD i

/-- Computes the links of the edges. -/
def construct (g : Graph α) : Graph α where
  edges := g.edges
  links := some {
    successors := g.edges.map fun e => g.departures e.target
    neighbors := g.edges.mapIdx fun i e => nextIn (g.departures e.source) i }

/-- Drops the links. -/
def deconstruct (g : Graph α) : Graph α where
  edges := g.edges
  links := none

/-- The indices of the successors of the edge at an index, none without links. -/
def successorIndices (g : Graph α) (index : Nat) : List Nat :=
  ((g.links.bind fun links => links.successors[index]?)).getD []

/-- The index of the neighbor of the edge at an index. -/
def neighborIndex? (g : Graph α) (index : Nat) : Option Nat :=
  g.links.bind fun links => links.neighbors[index]?

/-- The edges leaving the target of an edge. -/
def successors (g : Graph α) (id : Int) : List (Edge α) :=
  match g.indexOf? id with
  | some i => (g.successorIndices i).filterMap g.at?
  | none => []

/-- The next edge with the source of an edge. -/
def neighbor? (g : Graph α) (id : Int) : Option (Edge α) :=
  (g.indexOf? id).bind fun i => (g.neighborIndex? i).bind g.at?

/-- Whether `next` is a successor of `id`. -/
def isSuccessor (g : Graph α) (id next : Int) : Bool :=
  (g.successors id).any fun e => e.id == next

/-- A line about the graph. -/
def describe (g : Graph α) : String :=
  "Graph with Edges: " ++ toString g.size ++ " (constructed: " ++ toString g.isConstructed ++ ")"

/-! ### Components -/

/-- The indices that the edge at an index is linked to. -/
def linkedTo (g : Graph α) (index : Nat) : List Nat :=
  g.successorIndices index ++ (g.neighborIndex? index).toList

/-- Joins the classes of two indices under the name of the first. -/
def join (classes : List Nat) (i j : Nat) : List Nat :=
  match classes[i]?, classes[j]? with
  | some a, some b => if a = b then classes else classes.map fun c => if c = b then a else c
  | _, _ => classes

/-- The name of the class of each edge. -/
def classes (g : Graph α) : List Nat :=
  (List.range g.size).foldl
    (fun names i => (g.linkedTo i).foldl (fun names j => join names i j) names)
    (List.range g.size)

/-- The identifiers of linked edges, class by class. Classes come in the order of their first edge,
the edges of a class in their own order. -/
def components (g : Graph α) : List (List Int) :=
  let named := g.classes.zip (g.edges.toList.map Edge.id)
  g.classes.eraseDups.map fun name => (named.filter fun c => c.1 == name).map Prod.snd

end Graph

end RoadMatching
