import RoadMatching.Proofs.Matching.Joints
import RoadMatching.Proofs.Road.Lines
import RoadMatching.Proofs.Routing.Joining

/-!
Routes that are continued.

A route is continued over the roads of another one that goes on from its target, and measured anew.
What it measures then is what both have measured before.

* `Made`: the routes there can be on a map: those that stay, those over given roads, and those in a
  row. `Made.measured_eq`, `Made.isValid` are the invariants, and by these `Made.cost_append` says
  that routes in a row add up.
* `extend`: a route that is continued in place. `extend_eq`: it is `append?`, and where that has no
  answer the route is left as it was.
* `extend_adds`: **joining is sound**, for paths and for routes.
-/

namespace RoadMatching

namespace Route

variable {K : Type} [Field K] [LinearOrder K] [BEq K] [LawfulBEq K] {map : RoadMap K}
  {r s t : Route K}

/-! ### Routes there can be -/

/-- The routes on a map: those that stay at a position, those over roads that form a path, and
routes in a row. -/
inductive Made (map : RoadMap K) : Route K → Prop
  | single (p : RoadPoint K) : Made map (.single p)
  | of? {source target : RoadPoint K} {roads : List Int} {r : Route K}
    (h : Route.of? map source target roads = .ok r) : Made map r
  | append? {r s t : Route K} (hr : Made map r) (hs : Made map s)
    (h : Route.append? map r s = some t) : Made map t

/-- A route that is continued leads over the path of both, from the source of the one to the target
of the other, and is measured on it. -/
lemma of_append? (h : Route.append? map r s = some t) :
    Path.append? map.graph r.path s.path = some t.path ∧ t.source = r.source ∧
      t.target = s.target ∧ t.measured map = t := by
  obtain ⟨⟨source, target, edges⟩, hpath, rfl⟩ := Option.map_eq_some_iff.1 h
  obtain ⟨rfl, rfl⟩ : source = r.path.source ∧ target = s.path.target := Path.ends_append hpath
  exact ⟨hpath, rfl, rfl, rfl⟩

omit [LinearOrder K] [BEq K] [LawfulBEq K] in
/-- To stay at a position costs nothing. -/
lemma cost_single (p : RoadPoint K) (cost : Cost (Road K) K) : (single p).cost map cost = 0 := by
  have hnone : Path.fullCost map.graph cost [] = 0 := RoadMap.fullCost_eq cost []
  calc (single p).cost map cost
      = Path.remainder map.graph cost p.spot + Path.fullCost map.graph cost [] -
          Path.remainder map.graph cost p.spot := rfl
    _ = 0 := by rw [hnone, add_zero, sub_self]

/-- **The invariant of routes**: their length and their time are those of their path on the map. -/
lemma Made.measured_eq (h : Made map r) : r.measured map = r := by
  induction h with
  | single p =>
    rw [measured, cost_single, cost_single]
    rfl
  | of? h =>
    obtain ⟨-, rfl⟩ := of?_eq_ok_iff.1 h
    rfl
  | append? _ _ h _ _ => exact (of_append? h).2.2.2

/-- Once the map has been constructed, their path is valid. -/
lemma Made.isValid (hmap : map.Made) (hlinks : map.graph.links.isSome = true) (h : Made map r) :
    r.path.isValid map.graph = true := by
  induction h with
  | single p =>
    exact Path.isValid_iff.2 ⟨rfl, rfl, fun _ => lt_irrefl _, List.isChain_singleton _⟩
  | of? h =>
    obtain ⟨hvalid, rfl⟩ := of?_eq_ok_iff.1 h
    exact hvalid
  | append? _ _ h ihr ihs => exact Path.isValid_append hmap.built hlinks ihr ihs (of_append? h).1

/-- At a cost in proportion to the fraction of a road, routes in a row cost as much as both of
them. -/
lemma Made.cost_append (hmap : map.Made) (hlinks : map.graph.links.isSome = true) (hr : Made map r)
    (hs : Made map s) (h : Route.append? map r s = some t) (full : Road K → K) :
    t.cost map (.linear full) = r.cost map (.linear full) + s.cost map (.linear full) :=
  Path.cost_append (hr.isValid hmap hlinks) (hs.isValid hmap hlinks) (of_append? h).1
    (fun _ => mul_zero _) fun _ => mul_one _

/-! ### Joining in place -/

/-- Continues a route in place by another one, and says whether this one goes on where it ends. -/
def extend (map : RoadMap K) (s : Route K) : StateM (Route K) Bool := do
  let joined ← modifyGet fun r =>
    ((Path.extend map.graph s.path).run r.path).map id fun path => { r with roads := path.edges }
  if joined then
    modify fun r => { r with target := s.target }
    modify fun r => r.measured map
  return joined

omit [LawfulBEq K] in
/-- In place, a route becomes what `append?` gives, or stays as it is. -/
lemma extend_eq (r s : Route K) :
    (extend map s).run r = ((r.append? map s).isSome, (r.append? map s).getD r) := by
  have hpath : (Path.extend map.graph s.path).run r.path = _ := Path.extend_eq r.path s.path
  rw [append?]
  simp only [extend, StateT.run_bind, StateT.run_modifyGet]
  rw [hpath]
  cases happend : Path.append? map.graph r.path s.path with
  | none => rfl
  | some path => rfl

/-- **Joining is sound**. On a graph whose links have been computed, let a valid path be continued
in place by another one. If this is accepted, the path is valid, it leads from its source to the
target of the other one, and its cost is the sum of both costs, whatever the cost of an edge is, if
nothing of an edge costs nothing and all of it costs as much as the edge. Otherwise the path is as
it was. So the length and the time of a route on a map that has been constructed grow by those of a
route that it is continued by. -/
theorem extend_adds :
    (∀ {α : Type} {g : Graph α} {p q : Path K}, g.Built → g.links.isSome = true →
      p.isValid g = true → q.isValid g = true →
      (∀ after, (Path.extend g q).run p = (true, after) →
        after.isValid g = true ∧ after.source = p.source ∧ after.target = q.target ∧
          ∀ cost : Cost α K, (∀ label, cost.part label 0 = 0) →
            (∀ label, cost.part label 1 = cost.full label) →
            after.cost g cost = p.cost g cost + q.cost g cost) ∧
      ∀ after, (Path.extend g q).run p = (false, after) → after = p) ∧
    ∀ {map : RoadMap K} {r s : Route K}, map.Made → map.graph.links.isSome = true →
      Made map r → Made map s →
      (∀ after, (extend map s).run r = (true, after) →
        Made map after ∧ after.source = r.source ∧ after.target = s.target ∧
          after.length = r.length + s.length ∧ after.time = r.time + s.time) ∧
      ∀ after, (extend map s).run r = (false, after) → after = r := by
  refine ⟨fun {α g p q} hg hlinks hp hq => ⟨fun after h => ?_, fun after h => ?_⟩,
    fun {map r s} hmap hlinks hr hs => ⟨fun after h => ?_, fun after h => ?_⟩⟩
  · rw [Path.extend_eq, answered_iff] at h
    obtain ⟨hsource, htarget⟩ := Path.ends_append h
    exact ⟨Path.isValid_append hg hlinks hp hq h, hsource, htarget,
      fun cost hnone hfull => Path.cost_append hp hq h hnone hfull⟩
  · rw [Path.extend_eq, unanswered_iff] at h
    exact h.2
  · rw [extend_eq, answered_iff] at h
    obtain ⟨-, hsource, htarget, -⟩ := of_append? h
    have hafter := hr.append? hs h
    have hcost := hr.cost_append hmap hlinks hs h
    refine ⟨hafter, hsource, htarget, ?_, ?_⟩
    · rw [← hafter.measured_eq, ← hr.measured_eq, ← hs.measured_eq]
      exact hcost Road.length
    · rw [← hafter.measured_eq, ← hr.measured_eq, ← hs.measured_eq]
      exact hcost Road.seconds
  · rw [extend_eq, unanswered_iff] at h
    exact h.2

/-! ### An avenue -/

namespace Avenue

open Plane

/-- A street of a hundred metres. -/
def first : Street ℚ := .ofLine 1 0 1 [⟨0, 0⟩, ⟨100, 0⟩]

/-- The street behind it, of sixty metres. -/
def second : Street ℚ := .ofLine 2 1 2 [⟨100, 0⟩, ⟨160, 0⟩]

/-- The map of both streets. -/
def streets : RoadMap ℚ := (RoadMap.ofList [first, second]).construct

/-- From the middle of the first street to its end. -/
def near : Route ℚ :=
  .measured ⟨.on ⟨first, .forward⟩ (1 / 2), .on ⟨first, .forward⟩ 1, [2], 0, 0⟩ streets

/-- From the start of the second street to its middle. -/
def far : Route ℚ :=
  .measured ⟨.on ⟨second, .forward⟩ 0, .on ⟨second, .forward⟩ (1 / 2), [4], 0, 0⟩ streets

/-- From the middle of the first street to that of the second. -/
def along : Route ℚ := .measured ⟨near.source, far.target, [2, 4], 0, 0⟩ streets

end Avenue

open Avenue in
/-- A street of a circuit is continued by the street back. On an avenue, fifty metres are continued
by thirty. -/
theorem extend_adds_avenue :
    let out : Path ℚ := ⟨⟨1, 1 / 2⟩, ⟨1, 1⟩, [1]⟩
    let back : Path ℚ := ⟨⟨2, 0⟩, ⟨2, 1 / 4⟩, [2]⟩
    let both : Path ℚ := ⟨⟨1, 1 / 2⟩, ⟨2, 1 / 4⟩, [1, 2]⟩
    (Path.extend Path.circuit back).run out = (true, both) ∧
      both.cost Path.circuit .weight =
        out.cost Path.circuit .weight + back.cost Path.circuit .weight ∧
      (extend streets far).run near = (true, along) ∧ near.length = 50 ∧ far.length = 30 ∧
      along.length = near.length + far.length := by
  intro out back both
  have hpath : (Path.extend Path.circuit back).run out = (true, both) := by
    rw [Path.extend_eq, answered_iff]
    decide +kernel
  have hroute : (extend streets far).run near = (true, along) := by
    have happend : Path.append? streets.graph near.path far.path = some along.path := by
      decide +kernel
    rw [extend_eq, answered_iff, append?, happend]
    rfl
  have hmade : ∀ source target roads,
      (⟨source.spot, target.spot, roads⟩ : Path ℚ).isValid streets.graph = true →
        Made streets (.measured ⟨source, target, roads, 0, 0⟩ streets) :=
    fun _ _ _ hvalid => .of? (of?_eq_ok_iff.2 ⟨hvalid, rfl⟩)
  obtain ⟨hpaths, hroutes⟩ := extend_adds (K := ℚ)
  obtain ⟨hbuilt, hlinks⟩ : Path.circuit.Built ∧ Path.circuit.links.isSome = true :=
    ⟨(Graph.Built.ofList _).construct, rfl⟩
  obtain ⟨haccepted, -⟩ := hpaths hbuilt hlinks (p := out) (q := back) (by decide +kernel)
    (by decide +kernel)
  obtain ⟨-, -, -, hcost⟩ := haccepted both hpath
  obtain ⟨hcontinued, -⟩ := @hroutes streets near far (.construct (RoadMap.made_ofList _)) rfl
    (hmade _ _ _ (by decide +kernel)) (hmade _ _ _ (by decide +kernel))
  obtain ⟨-, -, -, hlength, -⟩ := hcontinued along hroute
  exact ⟨hpath, hcost _ (fun _ => mul_zero _) fun _ => mul_one _, hroute, by decide +kernel,
    by decide +kernel, hlength⟩

end Route

end RoadMatching
