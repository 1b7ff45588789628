import RoadMatching.Proofs.Matching.Joints
import RoadMatching.Proofs.Road.Lines

/-!
Routes that are cut short.

A route that turns around on the street of its start is replaced by one that turns around at once.
There are three ways to do so, and each moves an end to a fraction of another road, which must not
lie behind the other end on a single road.

* `least_eq_min`, `greatest_eq_max`: extremes over a linear order.
* `Turn.shorten?_cases`: the path of a route that is cut short, in three cases. `Turn.isValid_short`,
  `Turn.cost_short_le`: in each it is valid, and costs no more.
* `Matcher.turned_along`: **cutting short is safe**. Routes that a search finds can be made after
  they are cut short, so that no transition is lost, and they cost no more than before.
  `Matcher.turned_along_lane`: a route that turns around on a street.
-/

namespace RoadMatching

variable {K : Type} [Field K] [LinearOrder K]

/-! ### Extremes -/

section Extremes

variable [BEq K] [LawfulBEq K]

omit [Field K] in
lemma least_eq_min (x y : K) : least x y = min x y := by
  rcases lt_or_ge x y with h | h
  · rw [least_of_lt h, min_eq_left h.le]
  · rw [least_of_not_lt (not_lt.2 h), min_eq_right h]

omit [Field K] in
lemma greatest_eq_max (x y : K) : greatest x y = max x y := by
  rcases lt_or_ge y x with h | h
  · rw [greatest_of_lt h, max_eq_left h.le]
  · rw [greatest_of_not_lt (not_lt.2 h), max_eq_right h]

end Extremes

/-! ### The three cases -/

namespace Turn

/-- The path of a route. -/
def path (turn : Turn K) : Path K := ⟨turn.start.spot, turn.stop.spot, turn.roads⟩

variable [IsStrictOrderedRing K] [BEq K] [LawfulBEq K] [Geodesy K] [Analysis K] {map : RoadMap K}
  {turn short : Turn K}

omit [IsStrictOrderedRing K] in
/-- A route that is cut short either leaves the first road out, or keeps to one of its two roads, at
the end of which its own end or its start has moved by the metres of the turn at most. -/
lemma shorten?_cases (hmap : map.Made) (h : turn.shorten? map = some short) :
    ∃ a b rest first second, turn.roads = a :: b :: rest ∧ map.road? a = some first ∧
      map.road? b = some second ∧
      ((rest ≠ [] ∧
          short.path = ⟨⟨b, 1 - turn.start.fraction⟩, turn.stop.spot, b :: rest⟩) ∨
        (rest = [] ∧ turn.start.fraction < 1 - turn.stop.fraction ∧
          short.path = ⟨turn.start.spot,
            ⟨a, min (1 - turn.stop.fraction + penalty / first.length) 1⟩, [a]⟩) ∨
        (rest = [] ∧ ¬ turn.start.fraction < 1 - turn.stop.fraction ∧
          short.path = ⟨⟨b, max (1 - turn.start.fraction - penalty / second.length) 0⟩,
            turn.stop.spot, [b]⟩)) := by
  obtain ⟨⟨first, second⟩, hopposite, hshort⟩ := Option.map_eq_some_iff.1 h
  obtain ⟨a, b, rest, hroads, ha, hb, -⟩ := of_opposite? hopposite
  refine ⟨a, b, rest, first, second, hroads, ha, hb, ?_⟩
  have hfirst := hmap.id_of_road? ha
  have hsecond := hmap.id_of_road? hb
  have hlength : 2 < turn.roads.length ↔ rest ≠ [] := by
    rw [hroads, List.length_cons, List.length_cons, ← List.length_pos_iff]
    omega
  dsimp only at hshort
  split at hshort
  · next hlen =>
    subst hshort
    exact .inl ⟨hlength.1 hlen, by rw [path, RoadPoint.on, hsecond, hroads, List.tail_cons]⟩
  · next hlen =>
    obtain rfl : rest = [] := not_not.1 (mt hlength.2 hlen)
    split at hshort
    · next hlt =>
      subst hshort
      exact .inr (.inl ⟨rfl, hlt, by rw [path, RoadPoint.on, hfirst, least_eq_min, hroads]; rfl⟩)
    · next hge =>
      subst hshort
      exact .inr (.inr ⟨rfl, hge, by rw [path, RoadPoint.on, hsecond, greatest_eq_max, hroads]; rfl⟩)

omit [BEq K] [LawfulBEq K] [Geodesy K] [Analysis K] in
/-- The metres of a turn are a positive part of a road. -/
lemma penalty_div_pos {length : K} (h : 0 < length) : 0 < (penalty : K) / length := by
  refine div_pos ?_ h
  rw [penalty]
  exact_mod_cast Nat.succ_pos 4

section Shortened

variable (hmap : map.Made) (hlength : ∀ id r, map.road? id = some r → 0 < r.length)
  (hstart : 0 ≤ turn.start.fraction ∧ turn.start.fraction ≤ 1)
  (hstop : 0 ≤ turn.stop.fraction ∧ turn.stop.fraction ≤ 1)
  (hvalid : turn.path.isValid map.graph = true) (hshort : turn.shorten? map = some short)

include hmap hlength hstart hstop hvalid hshort

/-- A route that is cut short is still a valid path. -/
lemma isValid_short : short.path.isValid map.graph = true := by
  obtain ⟨hhead, hlast, -, hchain⟩ := Path.isValid_iff.1 hvalid
  obtain ⟨a, b, rest, first, second, hroads, ha, hb, hcases⟩ := shorten?_cases hmap hshort
  rw [path, hroads] at hhead hlast hchain
  rw [Path.isValid_iff]
  rcases hcases with ⟨hne, heq⟩ | ⟨rfl, hlt, heq⟩ | ⟨rfl, hge, heq⟩ <;> rw [heq]
  · refine ⟨rfl, by rwa [List.getLast?_cons_cons] at hlast, fun hlen => ?_, hchain.tail⟩
    exact absurd (List.length_eq_zero_iff.1 (Nat.succ.inj hlen)) hne
  · refine ⟨hhead, rfl, fun _ => not_lt.2 (le_min ?_ hstart.2), List.isChain_singleton a⟩
    have hpenalty := penalty_div_pos (hlength a first ha)
    exact hlt.le.trans (le_add_of_nonneg_right hpenalty.le)
  · refine ⟨rfl, by rwa [List.getLast?_cons_cons] at hlast, fun _ => not_lt.2 (max_le ?_ hstop.1),
      List.isChain_singleton b⟩
    have hpenalty := penalty_div_pos (hlength b second hb)
    have hfraction : 1 - turn.start.fraction ≤ turn.stop.fraction := by
      have := not_lt.1 hge
      linarith
    exact (sub_le_self _ hpenalty.le).trans hfraction

omit hlength in
/-- A route that is cut short costs no more, at any cost that grows with the fraction of a road. -/
lemma cost_short_le {full : Road K → K} (hfull : ∀ id r, map.road? id = some r → 0 ≤ full r) :
    short.path.cost map.graph (.linear full) ≤ turn.path.cost map.graph (.linear full) := by
  obtain ⟨hhead, hlast, -, -⟩ := Path.isValid_iff.1 hvalid
  obtain ⟨a, b, rest, first, second, hroads, ha, hb, hcases⟩ := shorten?_cases hmap hshort
  have hfirst := hfull a first ha
  have hsecond := hfull b second hb
  have hsource : turn.start.spot = ⟨a, turn.start.fraction⟩ := by
    rw [path, hroads] at hhead
    rw [Option.some.inj hhead]
    rfl
  have hcost : turn.path.cost map.graph (.linear full) =
      full first * (1 - turn.start.fraction) + (full second +
        Path.fullCost map.graph (.linear full) rest) -
          Path.remainder map.graph (.linear full) turn.stop.spot := by
    rw [Path.cost, path, hsource, RoadMap.remainder_eq ha, hroads, List.tail_cons,
      RoadMap.fullCost_eq, RoadMap.fullCost_eq, List.filterMap_cons_some hb, List.map_cons,
      List.sum_cons]
    rfl
  have hstay : rest = [] → Path.remainder map.graph (.linear full) turn.stop.spot =
      full second * (1 - turn.stop.fraction) := by
    rintro rfl
    rw [path, hroads, List.getLast?_cons_cons, List.getLast?_singleton] at hlast
    have htarget : turn.stop.spot = ⟨b, turn.stop.fraction⟩ := by
      rw [Option.some.inj hlast]
      rfl
    rw [htarget, RoadMap.remainder_eq hb]
    rfl
  have hnone : Path.fullCost map.graph (.linear full) [] = 0 := RoadMap.fullCost_eq _ _
  rw [hcost]
  rcases hcases with ⟨-, heq⟩ | ⟨rfl, hlt, heq⟩ | ⟨rfl, hge, heq⟩ <;>
    rw [heq, Path.cost, List.tail_cons]
  · -- the second road is travelled from the start on, and the first one is not
    rw [RoadMap.remainder_eq hb]
    have hsaved := mul_nonneg (add_nonneg hfirst hsecond) (sub_nonneg.2 hstart.2)
    simp only [Cost.linear] at hsaved ⊢
    linarith
  · -- the first road is travelled to its end at most
    rw [hstay rfl, hsource, RoadMap.remainder_eq ha, RoadMap.remainder_eq ha, hnone]
    simp only [Cost.linear]
    set fraction := min (1 - turn.stop.fraction + penalty / first.length) 1
    have hend : 0 ≤ full first * (1 - fraction) :=
      mul_nonneg hfirst (sub_nonneg.2 (min_le_right _ _))
    have hback := mul_nonneg hsecond hstop.1
    linarith
  · -- the second road is travelled from its start at most
    rw [hstay rfl, RoadMap.remainder_eq hb, hnone]
    simp only [Cost.linear]
    set fraction := max (1 - turn.start.fraction - penalty / second.length) 0
    have hbegin : 0 ≤ full second * fraction := mul_nonneg hsecond (le_max_right _ _)
    have hout := mul_nonneg hfirst (sub_nonneg.2 hstart.2)
    linarith

end Shortened

end Turn

/-! ### Transitions -/

namespace Matcher

variable [IsStrictOrderedRing K] [BEq K] [LawfulBEq K] [Geodesy K] [Analysis K] {m : Matcher K}
  {p c : RoadPoint K} {roads : List Int}

/-- Where a path is valid, the matcher's one is valid too and costs no more. -/
lemma turned_of_isValid (hmap : m.map.Made)
    (hlength : ∀ id r, m.map.road? id = some r → 0 < r.length)
    (hp : 0 ≤ p.fraction ∧ p.fraction ≤ 1) (hc : 0 ≤ c.fraction ∧ c.fraction ≤ 1)
    (hvalid : (⟨p.spot, c.spot, roads⟩ : Path K).isValid m.map.graph = true) :
    (m.turned p c roads).path.isValid m.map.graph = true ∧
      ∀ full : Road K → K, (∀ id r, m.map.road? id = some r → 0 ≤ full r) →
        (m.turned p c roads).path.cost m.map.graph (.linear full) ≤
          (⟨p.spot, c.spot, roads⟩ : Path K).cost m.map.graph (.linear full) := by
  rcases m.turned_cases p c roads with heq | ⟨-, hshort⟩
  · rw [heq]
    exact ⟨hvalid, fun _ _ => le_rfl⟩
  · have hvalid : (⟨p, c, roads⟩ : Turn K).path.isValid m.map.graph = true := hvalid
    exact ⟨Turn.isValid_short hmap hlength hp hc hvalid hshort,
      fun _ hfull => Turn.cost_short_le hmap hp hc hvalid hshort hfull⟩

/-- **Cutting short is safe**. On a map of roads with positive lengths, let a search find a route
between two positions on their roads, whatever its cost and its limit. Then the route can be made,
also after the matcher has cut it short if it does so, and the transition along it is not lost. At
any cost that is not negative on the roads of the map, and in proportion to the fraction of a road,
the route that is cut short costs no more than the other one. -/
theorem turned_along (hmap : m.map.Made)
    (hlength : ∀ id r, m.map.road? id = some r → 0 < r.length)
    (hp : 0 ≤ p.fraction ∧ p.fraction ≤ 1) (hc : 0 ≤ c.fraction ∧ c.fraction ≤ 1)
    {cost : Cost (Road K) K} {limit : Option (Limit (Road K) K)}
    (hroads : m.map.graph.route? cost limit p.spot c.spot = some roads) :
    ∃ whole route, Route.of? m.map p c roads = .ok whole ∧
      Route.of? m.map (m.turned p c roads).start (m.turned p c roads).stop
        (m.turned p c roads).roads = .ok route ∧
      (∀ before after, ∃ likelihood, m.along before p after c roads = some (route, likelihood)) ∧
      ∀ full : Road K → K, (∀ id r, m.map.road? id = some r → 0 ≤ full r) →
        route.cost m.map (.linear full) ≤ whole.cost m.map (.linear full) := by
  have hanswer : (m.map.graph.routesFrom cost limit p.spot [c.spot])[0]? = some (some roads) := by
    rw [← List.head?_eq_getElem?]
    exact Option.join_eq_some_iff.1 hroads
  obtain ⟨hvalid, -⟩ := Graph.route_isValid hmap.built rfl hanswer
  obtain ⟨hturned, hcost⟩ := turned_of_isValid hmap hlength hp hc hvalid
  have hroute := Route.of?_eq_ok_iff.2 ⟨hturned, rfl⟩
  refine ⟨_, _, Route.of?_eq_ok_iff.2 ⟨hvalid, rfl⟩, hroute, fun before after => ?_, hcost⟩
  rw [along]
  simp only [hroute]
  exact ⟨_, rfl⟩

namespace Lane

open Plane

/-- A street of a hundred metres that may be travelled both ways. -/
def street : Street ℚ := .ofLine 1 0 1 [⟨0, 0⟩, ⟨100, 0⟩]

/-- A matcher on the street. -/
def matcher : Matcher ℚ := ⟨(RoadMap.ofList [street]).construct, .standard⟩

/-- The position in the middle of the street. -/
def middle : RoadPoint ℚ := .on ⟨street, .forward⟩ (1 / 2)

/-- A position ahead on the way back. -/
def back : RoadPoint ℚ := .on ⟨street, .backward⟩ (9 / 10)

end Lane

open Lane Plane in
/-- A route from the middle of a street to its end and back again is found. What the matcher makes of
it stays on the way back, and is shorter. -/
theorem turned_along_lane :
    matcher.map.Made ∧ (∀ id r, matcher.map.road? id = some r → 0 < r.length) ∧
      matcher.map.graph.route? Road.distance none middle.spot back.spot = some [2, 3] ∧
      ∃ whole route, Route.of? matcher.map middle back [2, 3] = .ok whole ∧
        (∀ before after, ∃ likelihood,
          matcher.along before middle after back [2, 3] = some (route, likelihood)) ∧
        (matcher.turned middle back [2, 3]).roads = [3] ∧
        route.cost matcher.map Road.distance ≤ whole.cost matcher.map Road.distance := by
  have hmap : matcher.map.Made := .construct (RoadMap.made_ofList _)
  have hedges : ∀ e ∈ matcher.map.graph.edges, 0 < e.label.length := by decide +kernel
  have hlength : ∀ id r, matcher.map.road? id = some r → 0 < r.length := by
    intro id r hr
    obtain ⟨e, he, rfl⟩ := RoadMap.exists_edge_of_road? hr
    exact hedges e he
  have hroads : matcher.map.graph.route? Road.distance none middle.spot back.spot = some [2, 3] := by
    decide +kernel
  obtain ⟨whole, route, hwhole, -, halong, hcost⟩ :=
    turned_along hmap hlength (p := middle) (by decide +kernel) (by decide +kernel) hroads
  exact ⟨hmap, hlength, hroads, whole, route, hwhole, halong, by decide +kernel,
    hcost Road.length fun id r hr => (hlength id r hr).le⟩

end Matcher

end RoadMatching
