import RoadMatching.Road.Map
import RoadMatching.Proofs.Routing.Soundness

/-!
Maps made from streets.

* `Graph.route_isValid`: the edges of a route are on the graph and make a valid path.
* `RoadMap.Made`: the maps that can be made. Their graphs are built, and a road stands under its own
  identifier; `Made.id_of_road?`. A road is followed by one that starts where it ends;
  `Made.target_eq_source`.
* `RoadMap.Has`: a position is the one of the map at its fraction.
* `RoadMap.remainder_eq`, `RoadMap.fullCost_eq`: costs of a path, road by road.
-/

namespace RoadMatching

/-! ### Edges of a graph -/

namespace Graph

variable {α K : Type} {g : Graph α}

/-- After an edge is added, each edge is this one or has been there. -/
lemma at?_add {e f : Edge α} {i : Nat} (h : (g.add e).at? i = some f) :
    f = e ∨ ∃ j, g.at? j = some f := by
  simp only [Graph.at?, Graph.add] at h ⊢
  split at h
  · rw [Array.getElem?_setIfInBounds] at h
    split at h
    · split at h
      · exact .inl (Option.some.inj h).symm
      · cases h
    · exact .inr ⟨i, h⟩
  · rw [Array.getElem?_push] at h
    split at h
    · exact .inl (Option.some.inj h).symm
    · exact .inr ⟨i, h⟩

variable [One K] [Add K] [Sub K] {cost : Cost α K} {limit : Option (Limit α K)}
  {sources targets : List (Spot K)}

/-- The edges of a trip are in the graph. -/
lemma isSome_get?_of_trip {source : Spot K} {ids : List Int} {i : Nat} {c : K}
    (h : Trip g cost sources source ids i c) : ∀ id ∈ ids, (g.get? id).isSome := by
  induction h with
  | start _ hi _ =>
    intro id hid
    rw [List.mem_singleton.1 hid]
    exact get?_isSome_iff.2 ⟨_, hi⟩
  | next _ _ he ih =>
    intro id hid
    rcases List.mem_append.1 hid with hid | hid
    · exact ih id hid
    · rw [List.mem_singleton.1 hid]
      exact get?_isSome_iff.2 (exists_indexOf? he)

/-- The edges up to a target are in the graph. -/
lemma isSome_get?_of_arrival [LT K] {source target : Spot K} {ids : List Int} {c : K}
    (h : Arrival g cost sources target source ids c) : ∀ id ∈ ids, (g.get? id).isSome := by
  cases h with
  | ahead hs _ hi he _ =>
    exact isSome_get?_of_trip (show Trip g cost sources _ _ _ _ from .start hs hi he)
  | entering h hj _ he => exact isSome_get?_of_trip (h.next hj he)

variable [Zero K] [LT K] [DecidableLT K] [Ord K]

/-- A route from one position leads along edges of the graph, and with its ends it is a valid path. -/
lemma route_isValid (hg : g.Built) {source : Spot K} {i : Nat} {target : Spot K}
    (ht : targets[i]? = some target) {edges : List Int}
    (h : (g.routesFrom cost limit source targets)[i]? = some (some edges)) :
    (⟨source, target, edges⟩ : Path K).isValid g = true ∧ ∀ id ∈ edges, (g.get? id).isSome := by
  rw [routesFrom, List.getElem?_map, getElem?_routes (List.getElem?_eq_some_iff.1 ht).1,
    Option.map_some, Option.some.injEq, Option.map_eq_some_iff] at h
  obtain ⟨⟨origin, ids⟩, hroute, rfl⟩ := h
  have hsound : Search.Sound g cost limit [source] targets _ :=
    Search.sound_run (Search.budget g [source] targets)
  obtain ⟨l, -, -, hmet, hread⟩ := hsound.exists_met hroute
  obtain ⟨origin', ids', hread', c, harr⟩ := hmet.exists_route hsound.entries ht
  rw [hread, Option.some.injEq, Prod.mk.injEq] at hread'
  obtain ⟨rfl, rfl⟩ := hread'
  obtain ⟨hsource, hvalid⟩ := harr.valid hg.distinct
  obtain rfl := List.mem_singleton.1 hsource
  exact ⟨hvalid, isSome_get?_of_arrival harr⟩

end Graph

namespace RoadMap

/-! ### Making maps -/

variable {K : Type} {map : RoadMap K}

/-- The roads of a map are those of the edges of its network. -/
lemma exists_edge_of_road? {id : Int} {r : Road K} (h : map.road? id = some r) :
    ∃ e ∈ map.graph.edges, e.label = r := by
  obtain ⟨e, he, rfl⟩ := Option.map_eq_some_iff.1 h
  obtain ⟨i, -, hi⟩ := Option.bind_eq_some_iff.1 he
  exact ⟨e, Array.mem_of_getElem? hi, rfl⟩

lemma isSome_road?_iff {id : Int} : (map.road? id).isSome ↔ (map.graph.get? id).isSome := by
  rw [road?, Option.isSome_map]

variable [Zero K] [LT K] [DecidableLT K]

/-- The maps made by adding streets, constructing and deconstructing. -/
inductive Made : RoadMap K → Prop
  | empty : Made .empty
  | add {map : RoadMap K} (street : Street K) : Made map → Made (map.add street)
  | construct {map : RoadMap K} : Made map → Made map.construct
  | deconstruct {map : RoadMap K} : Made map → Made map.deconstruct

lemma made_ofList (streets : List (Street K)) : (ofList streets).Made :=
  List.foldlRecOn streets add (motive := Made) .empty fun _ h street _ => h.add street

/-- The graph of a map is built. -/
lemma Made.built (h : map.Made) : map.graph.Built := by
  induction h with
  | empty => exact .empty
  | add street _ ih => exact ih.foldl_add _
  | construct _ ih => exact ih.construct
  | deconstruct _ ih => exact ih.deconstruct

/-- The edges of a map are its roads. -/
lemma Made.edge_eq (h : map.Made) :
    ∀ i e, map.graph.at? i = some e → e = e.label.edge := by
  induction h with
  | empty =>
    intro i e he
    simp [RoadMap.empty, Graph.empty, Graph.at?] at he
  | @add map street _ ih =>
    have hroads : ∀ e ∈ street.roads.map Road.edge, e = e.label.edge := by
      intro e he
      obtain ⟨r, -, rfl⟩ := List.mem_map.1 he
      rfl
    refine List.foldlRecOn (street.roads.map Road.edge) Graph.add
      (motive := fun g => ∀ i e, g.at? i = some e → e = e.label.edge) ih fun g hg e he i f hf => ?_
    rcases Graph.at?_add hf with rfl | ⟨j, hj⟩
    · exact hroads f he
    · exact hg j f hj
  | construct _ ih => exact ih
  | deconstruct _ ih => exact ih

/-- A road is found under its own identifier. -/
lemma Made.id_of_road? (h : map.Made) {id : Int} {r : Road K} (hr : map.road? id = some r) :
    r.id = id := by
  obtain ⟨e, he, rfl⟩ := Option.map_eq_some_iff.1 hr
  obtain ⟨i, hi, hid⟩ := (Graph.get?_eq_some_iff h.built.distinct).1 he
  rw [← hid]
  exact (congrArg Edge.id (h.edge_eq i e hi)).symm

/-- A road is followed by one that starts at the crossing where it ends. -/
lemma Made.target_eq_source (h : map.Made) {a b : Int}
    (hnext : map.graph.isSuccessor a b = true) :
    ∃ r s, map.road? a = some r ∧ map.road? b = some s ∧ r.target = s.source := by
  obtain ⟨e, f, ha, hb, hvertex⟩ :=
    Path.adjacent_iff.1 (Path.adjacent_of_isSuccessor h.built hnext)
  refine ⟨e.label, f.label, by rw [road?, ha, Option.map_some], by rw [road?, hb, Option.map_some], ?_⟩
  obtain ⟨i, he, -⟩ := (Graph.get?_eq_some_iff h.built.distinct).1 ha
  obtain ⟨j, hf, -⟩ := (Graph.get?_eq_some_iff h.built.distinct).1 hb
  have he' := congrArg Edge.target (h.edge_eq i e he)
  have hf' := congrArg Edge.source (h.edge_eq j f hf)
  exact (he'.symm.trans hvertex).trans hf'

/-! ### Positions -/

section Positions

variable [Geodesy K] [Analysis K] [NatCast K] [One K] [Add K] [Sub K] [Mul K] [Div K] [Neg K]
  [LE K] [DecidableLE K]

/-- A position is the one that the map has at its fraction of its road. -/
def Has (map : RoadMap K) (p : RoadPoint K) : Prop := map.point p.road p.fraction = .ok p

/-- The map has the positions on its roads. -/
lemma Made.has_on (h : map.Made) {id : Int} {r : Road K} (hr : map.road? id = some r)
    (fraction : K) : map.Has (.on r fraction) := by
  have hid : map.road? (RoadPoint.on r fraction).road = some r := by
    show map.road? r.id = some r
    rw [h.id_of_road? hr]
    exact hr
  rw [Has, point, hid]
  rfl

/-- A position of the map lies on a road of the map. -/
lemma Has.exists_road {p : RoadPoint K} (h : map.Has p) :
    ∃ r, map.road? p.road = some r ∧ p.road = r.id := by
  rw [Has, point] at h
  split at h
  · next r hr => exact ⟨r, hr, (congrArg RoadPoint.road (Except.ok.inj h)).symm⟩
  · cases h

/-- It is where its fraction of the line of the road is. -/
lemma Has.position_eq {p : RoadPoint K} (h : map.Has p) {r : Road K}
    (hr : map.road? p.road = some r) : p.position = r.geometry.interpolate p.fraction := by
  rw [Has, point, hr] at h
  exact (congrArg RoadPoint.position (Except.ok.inj h)).symm

end Positions

/-! ### Costs road by road -/

section Costs

variable {L : Type} [Field L] {map : RoadMap L}

/-- What remains of a road behind a fraction. -/
lemma remainder_eq {id : Int} {r : Road L} (h : map.road? id = some r) (cost : Cost (Road L) L)
    (fraction : L) : Path.remainder map.graph cost ⟨id, fraction⟩ = cost.part r (1 - fraction) := by
  obtain ⟨e, he, rfl⟩ := Option.map_eq_some_iff.1 h
  rw [Path.remainder, he]

/-- Roads that are travelled in full. -/
lemma fullCost_eq (cost : Cost (Road L) L) (ids : List Int) :
    Path.fullCost map.graph cost ids = ((ids.filterMap map.road?).map cost.full).sum := by
  have hroads : (ids.filterMap map.graph.get?).map Edge.label = ids.filterMap map.road? := by
    rw [List.map_filterMap]
    rfl
  rw [Path.fullCost, total_eq_sum, ← hroads, List.map_map]
  rfl

end Costs

end RoadMap

end RoadMatching
