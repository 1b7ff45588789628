import RoadMatching.Proofs.Matching.Calls
import RoadMatching.Proofs.Matching.Reducing
import RoadMatching.Proofs.Road.Directions
import RoadMatching.Proofs.Road.Reversal

/-!
The positions that are candidates for a sample.

They come from the roads around the sample, one position for each road. Some are dropped, and one
that falls slightly behind that of a predecessor on its road gives way to it.

* `RoadMap.Made.nodup_found`: what is found lies on different roads.
* `RoadMap.HasForward`: the map has the forward road of a street. `RoadMap.hasForward_after`: so it is
  for each street of a map on which none has been replaced.
* `RoadMap.Made.exists_found`: what is found is on the map, and within the radius if the map has the
  forward road of its street.
* `Matcher.foldl_follow`: of predecessors on different roads, a position follows the one on its own
  road.
* `Matcher.IsPlaced`: a position that is well placed among those found and those of predecessors.
* `Matcher.candidates_placed`: **candidates are well placed**. `Matcher.candidates_far`: without the
  forward road of its street, a candidate can be anywhere.
-/

namespace RoadMatching

variable {K : Type}

/-! ### What is found -/

section Found

variable [Geodesy K] [Analysis K] [NatCast K] [Zero K] [One K] [Add K] [Sub K] [Mul K] [Div K]
  [Neg K] [BEq K] [LT K] [DecidableLT K] [LE K] [DecidableLE K] [LineTree K] {map : RoadMap K}
  {index : LineIndex K}

lemma RoadMap.within_eq (hindex : map.index = some index) (p : Point K) (radius : K) :
    map.within p radius = .ok ((index.within p radius).flatMap map.pointsOf) := by
  rw [within, search, hindex]

/-- The positions that are found on a map are on different roads. -/
lemma RoadMap.Made.nodup_found (htree : LineTree.IsLawful K) (h : map.Made)
    (hindex : map.index = some index) (p : Point K) (radius : K) :
    (((index.within p radius).flatMap map.pointsOf).map RoadPoint.road).Nodup := by
  have hids : (index.lines.map IndexedLine.id).Nodup := by
    rw [h.index_eq hindex]
    exact LineIndex.nodup_ofList _
  refine h.nodup_flatMap_pointsOf hindex (LineIndex.nodup_within htree hids p radius)
    fun found hfound => ?_
  obtain ⟨l, hl, rfl, -⟩ := LineIndex.exists_of_mem_within htree hfound
  exact ⟨l, hl, rfl⟩

end Found

/-! ### Streets that are not replaced -/

namespace RoadMap

/-- The map has the forward road of a street. -/
def HasForward (map : RoadMap K) (s : Street K) : Prop :=
  map.road? (Road.idOf s.id .forward) = some ⟨s, .forward⟩

section Changes

variable [Zero K] [LT K] [DecidableLT K] {changes : List (Change K)}

/-- The edges of a map are the roads of streets that have been added. -/
lemma street_mem_of_at? :
    ∀ i e, (after changes).graph.at? i = some e → e.label.street ∈ added changes := by
  induction changes using List.reverseRecOn with
  | nil =>
    intro i e he
    simp [after, RoadMap.empty, Graph.empty, Graph.at?] at he
  | append_singleton changes c ih =>
    rw [after_concat, added, List.filterMap_append, ← added]
    have hbefore := fun i e he => List.mem_append_left ([c].filterMap Change.street?) (ih i e he)
    cases c with
    | add street =>
      refine List.foldlRecOn (street.roads.map Road.edge) Graph.add
        (motive := fun g => ∀ i e, g.at? i = some e → e.label.street ∈ added changes ++ [street])
        hbefore fun g hg e he i f hf => ?_
      rcases Graph.at?_add hf with rfl | ⟨j, hj⟩
      · obtain ⟨r, hr, rfl⟩ := List.mem_map.1 he
        rw [Road.edge, (Street.mem_roads_iff.1 hr).1]
        exact List.mem_append_right _ List.mem_cons_self
      · exact hg j f hj
    | construct => exact hbefore
    | deconstruct => exact hbefore

/-- The roads of a map are those of streets that have been added. -/
lemma street_mem_added {id : Int} {r : Road K} (hr : (after changes).road? id = some r) :
    r.street ∈ added changes := by
  obtain ⟨e, he, rfl⟩ := exists_edge_of_road? hr
  obtain ⟨i, hi⟩ := Array.getElem?_of_mem he
  exact street_mem_of_at? i e hi

/-- A map of streets with distinct identifiers has the forward roads of the streets of its roads. -/
lemma hasForward_after (hdoubles : ∀ s ∈ added changes, Road.Doubles s.id)
    (hids : ((added changes).map Street.id).Nodup) {id : Int} {r : Road K}
    (hr : (after changes).road? id = some r) : (after changes).HasForward r.street := by
  have hmem := street_mem_added hr
  have hlast : last? r.street.id .forward changes = some r.street := by
    obtain ⟨s, hs⟩ : ∃ s, last? r.street.id .forward changes = some s :=
      Option.isSome_iff_exists.1
        (List.find?_isSome.2 ⟨r.street, List.mem_reverse.2 hmem, by simp [Street.leads]⟩)
    obtain ⟨hs', hid, -⟩ := mem_added_of_last? hs
    rw [hs, List.inj_on_of_nodup_map hids hs' hmem hid]
  rw [HasForward, road?, get?_after hdoubles (hdoubles _ hmem), hlast]
  rfl

end Changes

end RoadMap

/-! ### Distances of what is found -/

section Distances

variable [Field K] [LinearOrder K] [IsStrictOrderedRing K] [Geodesy K] [Analysis K] [BEq K]

namespace RoadMap

variable {map : RoadMap K} {index : LineIndex K}

omit [IsStrictOrderedRing K] [Analysis K] [BEq K] [Geodesy K] in
/-- A road with the identifier of a line is along it, if the map has the forward road of its street:
this is the road of the line. -/
lemma Made.geometry_eq (h : map.Made) (hindex : map.index = some index) {l : IndexedLine K}
    (hl : l ∈ index.lines) {heading : Heading} {r : Road K}
    (hr : map.road? (Road.idOf l.id heading) = some r) (hforward : map.HasForward r.street) :
    r.street.geometry = l.line := by
  obtain ⟨s, hs, -, hline⟩ := h.forward_of_mem_lines hindex hl
  have hid : Road.idOf r.street.id r.heading = Road.idOf l.id heading := h.id_of_road? hr
  obtain rfl := h.heading_of_road? hr
  rw [← Road.idOf_congr hid .forward, hforward] at hs
  rw [← hline, congrArg Road.street (Option.some.inj hs)]

/-- A position that is found is within the radius, if the map has the forward road of its street. -/
lemma Made.distance_le [LineTree K] (htree : LineTree.IsLawful K) (hK : Geodesy.IsReversible K)
    (h : map.Made) (hindex : map.index = some index) {p : Point K} {radius : K} {found : Hit K}
    (hfound : found ∈ index.within p radius) {q : RoadPoint K} (hq : q ∈ map.pointsOf found)
    {r : Road K} (hr : map.road? q.road = some r) (hforward : map.HasForward r.street) :
    Geodesy.distance q.position p ≤ radius := by
  obtain ⟨l, hl, rfl, hle⟩ := LineIndex.exists_of_mem_within htree hfound
  obtain ⟨heading, r', hr', hroad, rfl⟩ := h.exists_heading hq
  obtain rfl : r' = r := Option.some.inj (by rw [← hr', ← hroad, hr])
  have hgeometry := h.geometry_eq hindex hl hr' hforward
  obtain ⟨s, heading'⟩ := r'
  obtain rfl : heading' = heading := h.heading_of_road? hr'
  obtain ⟨h₀, h₁⟩ := l.line.intercept_mem p
  refine le_of_eq_of_le (congrArg (Geodesy.distance · p) ?_) hle
  cases heading' with
  | forward => exact congrArg (Line.interpolate · (l.line.intercept p)) hgeometry
  | backward =>
    calc (RoadPoint.on (⟨s, .backward⟩ : Road K) (1 - l.line.intercept p)).position
        = s.geometry.interpolate (l.line.intercept p) := RoadPoint.position_on_backward hK s h₀ h₁
      _ = l.line.interpolate (l.line.intercept p) := by rw [← hgeometry]

/-- **What is found around a position** lies on different roads of the map, at fractions of the unit
interval. It is within the radius, if the map has the forward road of the street it is found on. -/
lemma Made.exists_found [LineTree K] (htree : LineTree.IsLawful K) (h : map.Made)
    (hindex : map.index.isSome) (p : Point K) (radius : K) :
    ∃ found, map.within p radius = .ok found ∧ (found.map RoadPoint.road).Nodup ∧
      ∀ q ∈ found, 0 ≤ q.fraction ∧ q.fraction ≤ 1 ∧ ∃ r, map.road? q.road = some r ∧
        (Geodesy.IsReversible K → map.HasForward r.street →
          Geodesy.distance q.position p ≤ radius) := by
  obtain ⟨index, hindex⟩ := Option.isSome_iff_exists.1 hindex
  refine ⟨_, within_eq hindex p radius, h.nodup_found htree hindex p radius, fun q hq => ?_⟩
  obtain ⟨hit, hhit, hmem⟩ := List.mem_flatMap.1 hq
  obtain ⟨heading, r, hr, hroad, hon⟩ := h.exists_heading hmem
  obtain ⟨l, -, rfl, -⟩ := LineIndex.exists_of_mem_within htree hhit
  obtain ⟨h₀, h₁⟩ := l.line.intercept_mem p
  have hunit : 0 ≤ q.fraction ∧ q.fraction ≤ 1 := by
    rw [hon]
    cases heading with
    | forward => exact ⟨h₀, h₁⟩
    | backward => exact ⟨sub_nonneg.2 h₁, sub_le_self 1 h₀⟩
  rw [← hroad] at hr
  exact ⟨hunit.1, hunit.2, r, hr,
    fun hK hforward => h.distance_le htree hK hindex hhit hmem hr hforward⟩

end RoadMap

end Distances

namespace Matcher

/-! ### Following predecessors -/

section Following

variable [Geodesy K] [LinearOrder K] {m : Matcher K}

/-- A position does not follow one on another road. -/
lemma follow_of_ne {p previous : RoadPoint K} (hne : previous.road ≠ p.road) :
    m.follow p previous = p :=
  if_neg fun h => hne h.1.symm

/-- A position without predecessors on its road stays. -/
lemma foldl_follow_of_ne {p : RoadPoint K} {previous : List (RoadPoint K)}
    (hne : ∀ q ∈ previous, q.road ≠ p.road) : previous.foldl m.follow p = p := by
  induction previous with
  | nil => rfl
  | cons q previous ih =>
    obtain ⟨hq, hne⟩ := List.forall_mem_cons.1 hne
    rw [List.foldl_cons, follow_of_ne hq, ih hne]

/-- Where the predecessors are on different roads, a position follows the one on its road. -/
lemma foldl_follow {previous : List (RoadPoint K)} (hroads : (previous.map RoadPoint.road).Nodup)
    {p q : RoadPoint K} (hq : q ∈ previous) (hroad : q.road = p.road) :
    previous.foldl m.follow p = m.follow p q := by
  induction previous with
  | nil => cases hq
  | cons first previous ih =>
    obtain ⟨hfirst, hroads⟩ := List.nodup_cons.1 hroads
    rcases List.mem_cons.1 hq with rfl | hq
    · rw [List.foldl_cons]
      refine foldl_follow_of_ne fun other hother heq => hfirst ?_
      rw [hroad, ← Call.road_follow m p q, ← heq]
      exact List.mem_map_of_mem hother
    · have hne : first.road ≠ p.road := fun heq => hfirst (by
        show first.road ∈ _
        rw [heq, ← hroad]
        exact List.mem_map_of_mem hq)
      rw [List.foldl_cons, follow_of_ne hne, ih hroads hq]

/-- A position stays, or becomes that of a predecessor. -/
lemma foldl_follow_mem (m : Matcher K) (previous : List (RoadPoint K)) (p : RoadPoint K) :
    previous.foldl m.follow p = p ∨ previous.foldl m.follow p ∈ previous := by
  refine List.foldlRecOn previous m.follow (motive := fun c => c = p ∨ c ∈ previous) (.inl rfl)
    fun c hc q hq => ?_
  rw [follow]
  split
  · exact .inr hq
  · exact hc

/-- A position that remains behind a predecessor on its road is far enough from it. -/
lemma le_distance_of_lt {previous : List (RoadPoint K)}
    (hroads : (previous.map RoadPoint.road).Nodup) {p q : RoadPoint K} (hq : q ∈ previous)
    (hroad : q.road = p.road) (hbehind : (previous.foldl m.follow p).fraction < q.fraction) :
    m.config.sigma ≤ Geodesy.distance (previous.foldl m.follow p).position q.position := by
  rw [foldl_follow hroads hq hroad, follow] at hbehind ⊢
  split at hbehind
  · exact absurd hbehind (lt_irrefl _)
  · next hstays =>
    rw [if_neg hstays]
    exact not_lt.1 fun hnear => hstays ⟨hroad.symm, hbehind, hnear⟩

end Following

/-! ### Candidates -/

section Candidates

variable [Field K] [LinearOrder K] [IsStrictOrderedRing K] [Geodesy K] [Analysis K] [BEq K]
variable {m : Matcher K}

/-- A position that is well placed, given what has been found and the positions of predecessors: it
is at a fraction of a road of the map, it is one of these positions, and where it is behind a
predecessor on its road, it is not closer to it than the standard deviation. -/
structure IsPlaced (m : Matcher K) (found previous : List (RoadPoint K)) (c : RoadPoint K) :
    Prop where
  on_map : (m.map.road? c.road).isSome
  nonneg : 0 ≤ c.fraction
  le_one : c.fraction ≤ 1
  origin : c ∈ found ∨ c ∈ previous
  behind : ∀ q ∈ previous, q.road = c.road → c.fraction < q.fraction →
    m.config.sigma ≤ Geodesy.distance c.position q.position

omit [IsStrictOrderedRing K] [Analysis K] [BEq K] in
/-- A position that is found is well placed when it has followed the predecessors. -/
lemma isPlaced_foldl_follow {found previous : List (RoadPoint K)}
    (hroads : (previous.map RoadPoint.road).Nodup)
    (hfractions : ∀ q ∈ previous, 0 ≤ q.fraction ∧ q.fraction ≤ 1) {p : RoadPoint K}
    (hp : p ∈ found) (hroad : (m.map.road? p.road).isSome)
    (hunit : 0 ≤ p.fraction ∧ p.fraction ≤ 1) :
    m.IsPlaced found previous (previous.foldl m.follow p) := by
  have horigin := foldl_follow_mem m previous p
  have hplace : 0 ≤ (previous.foldl m.follow p).fraction ∧
      (previous.foldl m.follow p).fraction ≤ 1 := by
    rcases horigin with heq | hmem
    · rw [heq]
      exact hunit
    · exact hfractions _ hmem
  exact
    { on_map := by rwa [Call.road_foldl_follow]
      nonneg := hplace.1
      le_one := hplace.2
      origin := horigin.imp_left fun heq => by rwa [heq]
      behind := fun q hq hon =>
        le_distance_of_lt hroads hq (hon.trans (Call.road_foldl_follow m previous p)) }

/-- **Candidates are well placed**. On a map with an index, with predecessors on different roads at
fractions of the unit interval, the candidates for a sample are positions on different roads. Each
is at a fraction of a road of the map, and is a position that was found around the sample or that of
the predecessor on its road. It is behind this predecessor only if it is at least the standard
deviation away from it. What was found is within the radius, if the map has the forward road of the
street it is found on. -/
theorem candidates_placed [LineTree K] (htree : LineTree.IsLawful K) (hmap : m.map.Made)
    (hindex : m.map.index.isSome) (name : Int → CandidateId) (predecessors : List (RoadCandidate K))
    (hroads : (predecessors.map fun p => p.payload.road).Nodup)
    (hfractions : ∀ p ∈ predecessors, 0 ≤ p.payload.fraction ∧ p.payload.fraction ≤ 1)
    (sample : Sample K) :
    ∃ found out, m.map.within sample.point m.config.maxRadius = .ok found ∧
      m.candidates name predecessors sample = .ok out ∧
      (out.map fun c => c.1.payload.road).Nodup ∧
      (∀ c ∈ out, m.IsPlaced found (predecessors.map Candidate.payload) c.1.payload) ∧
      ∀ q ∈ found, ∃ r, m.map.road? q.road = some r ∧
        (Geodesy.IsReversible K → m.map.HasForward r.street →
          Geodesy.distance q.position sample.point ≤ m.config.maxRadius) := by
  obtain ⟨found, hwithin, hnodup, hfound⟩ :=
    hmap.exists_found htree hindex sample.point m.config.maxRadius
  have hkept := Reduction.reduce_sublist m.map.graph found
  have hprevious : ((predecessors.map Candidate.payload).map RoadPoint.road).Nodup := by
    rw [List.map_map]
    exact hroads
  have hunit : ∀ q ∈ predecessors.map Candidate.payload, 0 ≤ q.fraction ∧ q.fraction ≤ 1 := by
    intro q hq
    obtain ⟨p, hp, rfl⟩ := List.mem_map.1 hq
    exact hfractions p hp
  have hsame : ((Reduction.reduce m.map.graph found).map fun p =>
      ((predecessors.map Candidate.payload).foldl m.follow p).road) =
        (Reduction.reduce m.map.graph found).map RoadPoint.road :=
    List.map_congr_left fun p _ => Call.road_foldl_follow m _ p
  refine ⟨found, _, hwithin, by rw [candidates, positions, hwithin], ?_, ?_, fun q hq => ?_⟩
  · rw [List.map_map, List.map_map]
    refine (congrArg List.Nodup hsame).mpr ?_
    exact hnodup.sublist (hkept.map RoadPoint.road)
  · intro c hc
    obtain ⟨q, hq, rfl⟩ := List.mem_map.1 hc
    obtain ⟨p, hp, rfl⟩ := List.mem_map.1 hq
    obtain ⟨h₀, h₁, r, hr, -⟩ := hfound p (hkept.subset hp)
    exact isPlaced_foldl_follow hprevious hunit (hkept.subset hp) (Option.isSome_of_eq_some hr)
      ⟨h₀, h₁⟩
  · exact (hfound q hq).2.2

end Candidates

/-! ### Around a turn -/

open Plane Street RoadMap

/-- The spots and positions of the candidates for a sample at a position. -/
def placesAt (m : Matcher ℚ) (predecessors : List (RoadCandidate ℚ)) (p : Point ℚ) :
    Option (List (Spot ℚ × Point ℚ)) :=
  (m.candidates toString predecessors ⟨"sample", 0, p, none⟩).toOption.map fun out =>
    out.map fun c => (c.1.payload.spot, c.1.payload.position)

/-- A candidate at the turn of the bending street. -/
def atTurn : RoadCandidate ℚ := .new "2" (.on ⟨bending, .forward⟩ (3 / 4))

/-- A sample slightly before the turn has a candidate at the turn, where the predecessor is, and one
slightly before it on the backward road. -/
theorem candidates_placed_turn :
    LineTree.IsLawful ℚ ∧ streets.Made ∧ streets.index.isSome ∧ Geodesy.IsReversible ℚ ∧
      ∃ found out, streets.within ⟨58, -3⟩ 200 = .ok found ∧
        candidates ⟨streets, .standard⟩ toString [atTurn] ⟨"sample", 0, ⟨58, -3⟩, none⟩ = .ok out ∧
        out.map (fun c => (c.1.payload.spot, c.1.payload.position)) =
          [(⟨2, 3 / 4⟩, ⟨60, 0⟩), (⟨3, 11 / 40⟩, ⟨58, 0⟩)] ∧
        (∀ c ∈ out, IsPlaced ⟨streets, .standard⟩ found [atTurn.payload] c.1.payload) ∧
        ∀ q ∈ found, Geodesy.distance q.position ⟨58, -3⟩ ≤ 200 := by
  have hmade : streets.Made := .construct (made_ofList _)
  have hsome : streets.index.isSome := Option.isSome_of_eq_some index_streets
  have hplaces : placesAt ⟨streets, .standard⟩ [atTurn] ⟨58, -3⟩ =
      some [(⟨2, 3 / 4⟩, ⟨60, 0⟩), (⟨3, 11 / 40⟩, ⟨58, 0⟩)] := by
    rw [placesAt, candidates, positions, within_eq index_streets]
    decide +kernel
  obtain ⟨found, out, hwithin, hout, -, hplaced, hfound⟩ :=
    Matcher.candidates_placed (m := ⟨streets, .standard⟩) isLawful hmade hsome toString [atTurn]
      (by decide +kernel) (by decide +kernel) ⟨"sample", 0, ⟨58, -3⟩, none⟩
  have hdoubles : ∀ s ∈ added [Change.add bending, Change.construct], Road.Doubles s.id := by
    simp [added, Change.street?, bending, Street.ofLine, Road.Doubles]
  rw [placesAt, hout] at hplaces
  refine ⟨isLawful, hmade, hsome, isReversible, found, out, hwithin, hout,
    Option.some.inj hplaces, hplaced, fun q hq => ?_⟩
  obtain ⟨r, hr, hnear⟩ := hfound q hq
  exact hnear isReversible (hasForward_after hdoubles (List.nodup_singleton _) hr)

/-- After a street has been replaced by a one-way street elsewhere, a sample near this one has a
second candidate, on the backward road of the other and far beyond the radius. -/
theorem candidates_far :
    replaced.Made ∧ replaced.index.isSome ∧
      placesAt ⟨replaced, .standard⟩ [] ⟨30, 510⟩ =
        some [(⟨2, 1 / 2⟩, ⟨30, 500⟩), (⟨3, 1 / 2⟩, ⟨40, 0⟩)] ∧
      (Config.standard : Config ℚ).maxRadius <
        Geodesy.distance (⟨40, 0⟩ : Point ℚ) ⟨30, 510⟩ := by
  refine ⟨.construct (made_ofList _), Option.isSome_of_eq_some index_replaced, ?_,
    by decide +kernel⟩
  rw [placesAt, candidates, positions, within_eq index_replaced]
  decide +kernel

end Matcher

end RoadMatching
