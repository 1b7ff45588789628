import RoadMatching.Matching.Codec
import RoadMatching.Proofs.Matching.Streets
import RoadMatching.Proofs.Memory.Records
import RoadMatching.Proofs.Number.Finite

/-!
Positions, routes and samples read back of what is written of them.

A position is written as a road and a fraction, and a route as its ends and roads. The rest is made
again when they are read, so that they must be as the map makes them.

* `Sample.IsWritable`, `RoadPoint.IsWritable`, `Route.IsWritable`: what must hold for being read back.
* `Sample.ofJson_toJson`, `RoadPoint.ofJson_toJson`, `Route.ofJson_toJson`: they are read back.
* `RoadMap.keeps_codec`: so are the parts of a candidate.
-/

namespace RoadMatching

variable {K : Type} {map : RoadMap K}

/-! ### Numbers -/

/-- The identifier of a road is an integer of 64 bits. -/
lemma Road.integer?_id (r : Road K) : Json.integer? (.int r.id : Json K) = some r.id := by
  have hrange : ∀ n : Int, Json.minInt64 ≤ signed64 n ∧ signed64 n ≤ Json.maxInt64 := by
    intro n
    rw [Json.minInt64, Json.maxInt64, signed64, Int.bmod_def]
    omega
  refine if_pos ?_
  rw [Road.id, Road.idOf.eq_def]
  split
  · exact hrange _
  · exact hrange _

/-- So is what a road is found under. -/
lemma RoadMap.Made.integer?_of_road? [Zero K] [LT K] [DecidableLT K] (h : map.Made) {id : Int}
    (hid : (map.road? id).isSome) : Json.integer? (.int id : Json K) = some id := by
  obtain ⟨r, hr⟩ := Option.isSome_iff_exists.1 hid
  rw [← h.id_of_road? hr]
  exact r.integer?_id

/-- A finite number is read back. -/
lemma Json.number?_ofNumber [Extended K] [IntCast K] {x : K} (h : isFinite x = true) :
    (ofNumber x).number? = some x := by
  rw [ofNumber, if_pos h]
  rfl

/-- Integers of 64 bits are read back as roads. -/
lemma Route.roadsOfJson_map [Numeral K] {roads : List Int}
    (h : ∀ id ∈ roads, Json.integer? (.int id : Json K) = some id) :
    roadsOfJson (.arr (roads.map .int) : Json K) = .ok roads := by
  rw [roadsOfJson, Json.items?]
  dsimp only
  induction roads with
  | nil => rfl
  | cons id roads ih =>
    rw [List.map_cons, List.mapM_cons, h id List.mem_cons_self,
      ih fun id hid => h id (List.mem_cons_of_mem _ hid)]
    rfl

/-! ### Samples -/

section Samples

variable [Numeral K] [GeometryText K]

/-- The fields of a sample. -/
lemma Sample.fields_toJson (s : Sample K) :
    s.toJson.field? "id" = some (.str s.id) ∧ s.toJson.field? "time" = some (.int s.time) ∧
      s.toJson.field? "point" = some (.str (GeometryText.point s.point)) ∧
      s.toJson.field? "azimuth" = s.azimuth.map Json.ofNumber := by
  obtain ⟨id, time, point, azimuth⟩ := s
  cases azimuth <;> simp [toJson, Json.field?_object, List.lookup_cons]

variable [Analysis K] [IntCast K] [NatCast K] [Zero K] [One K] [LT K] [DecidableLT K] [Neg K] [Add K]

/-- A sample with finite coordinates, at a time of 64 bits and with a direction within the full circle
if it has one. -/
structure Sample.IsWritable (s : Sample K) : Prop where
  time : -9223372036854775808 ≤ s.time ∧ s.time < 9223372036854775808
  x : isFinite s.point.x = true
  y : isFinite s.point.y = true
  azimuth : ∀ a ∈ s.azimuth, isFinite a = true ∧ ¬ a < 0 ∧ a < (360 : Nat)

/-- A sample is read back, if its point is and the remainder of a direction within the full circle is
itself. -/
lemma Sample.ofJson_toJson
    (hremainder : ∀ x : K, ¬ x < 0 → x < (360 : Nat) → Analysis.remainder x (360 : Nat) = x)
    {s : Sample K} (h : s.IsWritable) (hkeeps : GeometryText.Keeps s.point) :
    ofJson s.toJson = .ok s := by
  obtain ⟨hid, htime, hpoint, hazimuth⟩ := s.fields_toJson
  have htime' : timeOf (s.toJson.field? "time") = .ok s.time := by
    have hinteger : Json.integer? (.int s.time : Json K) = some s.time := by
      refine if_pos ?_
      obtain ⟨hlow, hhigh⟩ := h.time
      rw [Json.minInt64, Json.maxInt64]
      omega
    rw [htime, timeOf, hinteger]
  have hpoint' : pointOf (s.toJson.field? "point") = .ok s.point := by
    rw [hpoint, pointOf, hkeeps h.x h.y]
  rw [ofJson, htime', hpoint', hid, hazimuth]
  obtain ⟨id, time, point, azimuth⟩ := s
  cases azimuth with
  | none => rfl
  | some a =>
    obtain ⟨hfinite, hlow, hhigh⟩ := h.azimuth a rfl
    have hcircle : euclideanRemainder a ((360 : Nat) : K) = a := by
      rw [euclideanRemainder, hremainder a hlow hhigh]
      exact if_neg hlow
    simp only [bind, Except.bind, pure, Except.pure, Option.map_some, Option.bind,
      Json.number?_ofNumber hfinite, withAzimuth, hcircle]
    rfl

end Samples

variable [Geodesy K] [Analysis K] [NatCast K] [Zero K] [One K] [Add K] [Sub K] [Mul K] [Div K]
  [Neg K] [LT K] [DecidableLT K] [LE K] [DecidableLE K]

/-! ### Positions -/

variable [Numeral K] [IntCast K] [BEq K]

/-- A position of the map whose fraction is a number of the unit interval. -/
structure RoadPoint.IsWritable (map : RoadMap K) (p : RoadPoint K) : Prop where
  has : map.Has p
  fraction : InUnit p.fraction

/-- A position is read back. -/
lemma RoadPoint.ofJson_toJson (hlaws : FiniteLaws K) {p : RoadPoint K} (h : p.IsWritable map) :
    ofJson map p.toJson = .ok p := by
  have hroad : (p.toJson.field? "road").bind Json.integer? = some p.road := by
    obtain ⟨r, -, hid⟩ := h.has.exists_road
    rw [RoadPoint.toJson, Json.field?_object, hid]
    exact r.integer?_id
  have hfraction : (p.toJson.field? "frac").bind Json.number? = some p.fraction := by
    rw [RoadPoint.toJson, Json.field?_object]
    exact Json.number?_ofNumber (hlaws.finite _ h.fraction)
  rw [ofJson, hroad, hfraction]
  exact h.has

/-! ### Routes -/

/-- A route as the map makes it of its ends and its roads. -/
structure Route.IsWritable (map : RoadMap K) (r : Route K) : Prop where
  made : Route.of? map r.source r.target r.roads = .ok r
  known : ∀ id ∈ r.roads, (map.road? id).isSome
  source : r.source.IsWritable map
  target : r.target.IsWritable map

/-- A route is read back. -/
lemma Route.ofJson_toJson (hlaws : FiniteLaws K) (hmap : map.Made) {r : Route K}
    (h : r.IsWritable map) : ofJson map r.toJson = .ok r := by
  have hpart : ∀ key value, r.toJson.field? key = some value → part r.toJson key = .ok value := by
    intro key value hfield
    rw [part, hfield]
  have hroads : roadsOfJson (.arr (r.roads.map .int) : Json K) = .ok r.roads :=
    roadsOfJson_map fun id hid => hmap.integer?_of_road? (h.known id hid)
  rw [ofJson, hpart "source" r.source.toJson (by rw [toJson, Json.field?_object]; rfl),
    hpart "target" r.target.toJson (by rw [toJson, Json.field?_object]; rfl),
    hpart "roads" (.arr (r.roads.map .int)) (by rw [toJson, Json.field?_object]; rfl)]
  simp only [bind, Except.bind, RoadPoint.ofJson_toJson hlaws h.source,
    RoadPoint.ofJson_toJson hlaws h.target, hroads, h.made]

/-! ### Candidates -/

/-- The parts of a candidate are read back. -/
lemma RoadMap.keeps_codec [GeometryText K] (hlaws : FiniteLaws K) (hmap : map.Made)
    {c : RoadCandidate K} (hpayload : c.payload.IsWritable map) (htransition : ∀ r ∈ c.transition, r.IsWritable map) :
    map.codec.Keeps c where
  payload := by
    show snapshotFault (RoadPoint.ofJson map c.payload.toJson) = .ok c.payload
    rw [RoadPoint.ofJson_toJson hlaws hpayload]
    rfl
  transition r hr := by
    refine ⟨?_, fun hnull => by cases hnull⟩
    show map.readTransition (Json.object [("route", r.toJson)]) = .ok r
    have hfield : (Json.object [("route", r.toJson)]).field? "route" = some r.toJson := by
      rw [Json.field?_object]
      rfl
    rw [readTransition, hfield]
    dsimp only
    rw [Route.ofJson_toJson hlaws hmap (htransition r hr)]
    rfl

end RoadMatching
