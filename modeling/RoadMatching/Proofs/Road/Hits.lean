import RoadMatching.Proofs.Matching.Streets

/-!
Streets that are found by their lines.

The index of a map holds the lines of the streets that have a forward road on the map. A line that
is hit yields a position on this road, and one on the road that has the identifier of the backward
road.

* `Road.idOf_ne`, `Road.idOf_congr`: identifiers of roads tell the directions apart, and the streets
  in one direction as well as in the other.
* `LineIndex.nodup_ofList`, `LineIndex.mem_distinct`: the lines of an index have distinct
  identifiers, and are among those given. `LineIndex.exists_of_mem_within`,
  `LineIndex.nodup_within`: the lines that are found within a radius.
* `RoadMap.Made.index_eq`: the index of a map is that of its lines, or there is none.
* `RoadMap.Made.forward_of_mem_lines`, `RoadMap.Made.heading_of_road?`: the roads of a line that is
  hit.
* `RoadMap.Made.pointsOf_eq`: the positions of a hit. `RoadMap.Made.nodup_flatMap_pointsOf`: the
  positions of many hits are on different roads.
-/

namespace RoadMatching

variable {K : Type}

/-! ### Identifiers -/

/-- No forward road has the identifier of a backward one. -/
lemma Road.idOf_ne (m n : Int) : idOf m .forward ≠ idOf n .backward := by
  rw [idOf, idOf, signed64, signed64, Int.bmod_def, Int.bmod_def]
  omega

/-- The direction is told by the identifier. -/
lemma Road.heading_eq {m n : Int} {g h : Heading} (heq : idOf m g = idOf n h) : g = h := by
  cases g <;> cases h
  · rfl
  · exact absurd heq (idOf_ne m n)
  · exact absurd heq.symm (idOf_ne n m)
  · rfl

/-- Streets whose roads in one direction share an identifier share it in both directions. -/
lemma Road.idOf_congr {m n : Int} {g : Heading} (heq : idOf m g = idOf n g) (h : Heading) :
    idOf m h = idOf n h := by
  cases g <;> cases h <;>
    simp only [idOf, signed64, Int.bmod_def] at heq ⊢ <;> omega

/-! ### Lines of an index -/

namespace LineIndex

section Distinct

variable [LT K] [DecidableLT K] [Zero K]

/-- One more line is taken if its identifier is new. -/
lemma distinct_concat (lines : List (Int × Line K)) (entry : Int × Line K) :
    distinct (lines ++ [entry]) =
      if (distinct lines).any fun l => l.id == entry.1 then distinct lines
      else distinct lines ++ [indexed entry.1 entry.2] := by
  rw [distinct, List.foldl_concat]
  rfl

/-- The lines that are taken have distinct identifiers. -/
lemma nodup_distinct (lines : List (Int × Line K)) :
    ((distinct lines).map IndexedLine.id).Nodup := by
  induction lines using List.reverseRecOn with
  | nil => exact List.nodup_nil
  | append_singleton lines entry ih =>
    rw [distinct_concat]
    split
    · exact ih
    · next hnew =>
      rw [List.map_append, List.map_singleton, List.nodup_append]
      refine ⟨ih, List.nodup_singleton _, fun id hid other hother => ?_⟩
      obtain ⟨l, hl, rfl⟩ := List.mem_map.1 hid
      rw [List.mem_singleton.1 hother]
      exact fun heq => hnew (List.any_eq_true.2 ⟨l, hl, beq_iff_eq.2 heq⟩)

/-- A line that is taken is one of those given. -/
lemma mem_distinct {lines : List (Int × Line K)} {l : IndexedLine K} (hl : l ∈ distinct lines) :
    (l.id, l.line) ∈ lines := by
  induction lines using List.reverseRecOn with
  | nil => cases hl
  | append_singleton lines entry ih =>
    rw [distinct_concat] at hl
    split at hl
    · exact List.mem_append_left _ (ih hl)
    · rcases List.mem_append.1 hl with hl | hl
      · exact List.mem_append_left _ (ih hl)
      · rw [List.mem_singleton.1 hl]
        exact List.mem_append_right _ List.mem_cons_self

/-- The lines of an index have distinct identifiers. -/
lemma nodup_ofList (lines : List (Int × Line K)) :
    ((ofList lines).lines.map IndexedLine.id).Nodup :=
  (lines_ofList lines).symm ▸ nodup_distinct lines

end Distinct

section Search

variable [Geodesy K] [Zero K] [One K] [Add K] [Sub K] [Mul K] [Div K] [Neg K] [BEq K]
variable [LT K] [DecidableLT K] [LE K] [DecidableLE K] [LineTree K]

/-- What is found within a radius is a line of the index at a distance up to the radius. -/
lemma exists_of_mem_within (htree : LineTree.IsLawful K) {index : LineIndex K} {p : Point K}
    {radius : K} {found : Hit K} (hfound : found ∈ index.within p radius) :
    ∃ l ∈ index.lines, hit p l = found ∧ found.distance ≤ radius := by
  obtain ⟨hfound, hle⟩ := List.mem_filter.1 hfound
  obtain ⟨l, hl, rfl⟩ := List.mem_map.1 hfound
  have hmeets := (htree.meeting index _).mem_iff.1 hl
  exact ⟨l, (List.mem_filter.1 hmeets).1, rfl, of_decide_eq_true hle⟩

/-- Each line is found once. -/
lemma nodup_within (htree : LineTree.IsLawful K) {index : LineIndex K}
    (hids : (index.lines.map IndexedLine.id).Nodup) (p : Point K) (radius : K) :
    ((index.within p radius).map Hit.id).Nodup := by
  refine .sublist (List.filter_sublist.map _) ?_
  rw [List.map_map]
  exact ((htree.meeting index _).map IndexedLine.id).nodup_iff.2
    (hids.sublist (List.filter_sublist.map IndexedLine.id))

end Search

end LineIndex

/-! ### Streets of a map -/

namespace RoadMap

section Streets

variable [Zero K] [LT K] [DecidableLT K] {map : RoadMap K} {index : LineIndex K}

/-- **The invariant of maps**: there is an index exactly of the lines of the map, or none. -/
lemma Made.index_eq (h : map.Made) (hindex : map.index = some index) :
    index = .ofList map.lines := by
  cases h with
  | empty => cases hindex
  | add street _ => cases hindex
  | construct _ => exact (Option.some.inj hindex).symm
  | deconstruct _ => cases hindex

/-- The street of a line has its forward road on the map. -/
lemma Made.forward_of_mem_lines (h : map.Made) (hindex : map.index = some index)
    {l : IndexedLine K} (hl : l ∈ index.lines) :
    ∃ s : Street K, map.road? (Road.idOf l.id .forward) = some ⟨s, .forward⟩ ∧ s.id = l.id ∧
      s.geometry = l.line := by
  rw [h.index_eq hindex, LineIndex.lines_ofList] at hl
  obtain ⟨⟨street, heading⟩, hr, hline⟩ := List.mem_filterMap.1 (LineIndex.mem_distinct hl)
  obtain ⟨e, he, hlabel⟩ := List.mem_map.1 hr
  obtain ⟨i, hi⟩ := List.getElem?_of_mem he
  rw [Array.getElem?_toList] at hi
  have hedge := h.edge_eq i e hi
  rw [hlabel] at hedge
  cases heading with
  | backward => cases hline
  | forward =>
    obtain ⟨hid, hgeometry⟩ := Prod.mk.inj (Option.some.inj hline)
    have hget : map.graph.get? (Road.idOf l.id .forward) = some e :=
      (Graph.get?_eq_some_iff h.built.distinct).2 ⟨i, hi, by rw [hedge, ← hid]; rfl⟩
    exact ⟨street, by rw [road?, hget, Option.map_some, hlabel], hid, hgeometry⟩

/-- What is found under the identifier of a road leads in its direction. -/
lemma Made.heading_of_road? (h : map.Made) {n : Int} {heading : Heading} {r : Road K}
    (hr : map.road? (Road.idOf n heading) = some r) : r.heading = heading :=
  Road.heading_eq (h.id_of_road? hr)

end Streets

section Points

variable [Geodesy K] [Analysis K] [NatCast K] [Zero K] [One K] [Add K] [Sub K] [Mul K] [Div K]
  [Neg K] [BEq K] [LT K] [DecidableLT K] [LE K] [DecidableLE K] {map : RoadMap K}
  {index : LineIndex K}

/-! ### Positions of a hit -/

/-- The positions of a hit: on the forward road of the street, and on the road under the identifier
of the backward road, if there is one. -/
lemma Made.pointsOf_eq (h : map.Made) (hindex : map.index = some index) {l : IndexedLine K}
    (hl : l ∈ index.lines) (p : Point K) :
    ∃ s : Street K, map.road? (Road.idOf l.id .forward) = some ⟨s, .forward⟩ ∧ s.id = l.id ∧
      s.geometry = l.line ∧
      map.pointsOf (LineIndex.hit p l) =
        .on ⟨s, .forward⟩ (l.line.intercept p) ::
          ((map.road? (Road.idOf l.id .backward)).map fun b =>
            .on b (1 - l.line.intercept p)).toList := by
  obtain ⟨s, hs, hid, hline⟩ := h.forward_of_mem_lines hindex hl
  refine ⟨s, hs, hid, hline, ?_⟩
  show ((map.road? (Road.idOf l.id .forward)).map _).toList ++ _ = _
  rw [hs]
  rfl

omit [BEq K] in
/-- A position of a hit is on a road under an identifier of the street. -/
lemma Made.exists_heading (h : map.Made) {hit : Hit K} {q : RoadPoint K}
    (hq : q ∈ map.pointsOf hit) :
    ∃ heading r, map.road? (Road.idOf hit.id heading) = some r ∧
      q.road = Road.idOf hit.id heading ∧
      q = .on r (match heading with
        | .forward => hit.fraction
        | .backward => 1 - hit.fraction) := by
  rcases List.mem_append.1 hq with hq | hq
  · obtain ⟨r, hr, rfl⟩ := Option.map_eq_some_iff.1 (Option.mem_toList.1 hq)
    exact ⟨.forward, r, hr, h.id_of_road? hr, rfl⟩
  · obtain ⟨r, hr, rfl⟩ := Option.map_eq_some_iff.1 (Option.mem_toList.1 hq)
    exact ⟨.backward, r, hr, h.id_of_road? hr, rfl⟩

omit [BEq K] in
/-- The positions of a hit are on different roads. -/
lemma Made.nodup_pointsOf (h : map.Made) (hit : Hit K) :
    ((map.pointsOf hit).map RoadPoint.road).Nodup := by
  rw [pointsOf, List.map_append, List.nodup_append]
  refine ⟨?_, ?_, fun a ha b hb => ?_⟩
  · cases map.road? (Road.idOf hit.id .forward) <;> simp
  · cases map.road? (Road.idOf hit.id .backward) <;> simp
  · obtain ⟨p, hp, rfl⟩ := List.mem_map.1 ha
    obtain ⟨q, hq, rfl⟩ := List.mem_map.1 hb
    obtain ⟨r, hr, rfl⟩ := Option.map_eq_some_iff.1 (Option.mem_toList.1 hp)
    obtain ⟨s, hs, rfl⟩ := Option.map_eq_some_iff.1 (Option.mem_toList.1 hq)
    show r.id ≠ s.id
    rw [h.id_of_road? hr, h.id_of_road? hs]
    exact Road.idOf_ne _ _

omit [BEq K] in
/-- The positions of hits of different streets are on different roads. -/
lemma Made.nodup_flatMap_pointsOf (h : map.Made) (hindex : map.index = some index)
    {hits : List (Hit K)} (hids : (hits.map Hit.id).Nodup)
    (hlines : ∀ hit ∈ hits, ∃ l ∈ index.lines, l.id = hit.id) :
    ((hits.flatMap map.pointsOf).map RoadPoint.road).Nodup := by
  rw [List.map_flatMap, List.nodup_flatMap]
  refine ⟨fun hit _ => h.nodup_pointsOf hit, (List.pairwise_map.1 hids).imp_of_mem ?_⟩
  intro a b ha hb hne x hxa hxb
  obtain ⟨p, hp, rfl⟩ := List.mem_map.1 hxa
  obtain ⟨q, hq, hroad⟩ := List.mem_map.1 hxb
  obtain ⟨g, -, -, hpg, -⟩ := h.exists_heading hp
  obtain ⟨g', -, -, hqg, -⟩ := h.exists_heading hq
  -- roads under one identifier are in one direction, and then the streets have one forward road
  have hids : Road.idOf a.id g = Road.idOf b.id g' := by rw [← hpg, ← hqg, hroad]
  obtain rfl := Road.heading_eq hids
  obtain ⟨l, hl, hla⟩ := hlines a ha
  obtain ⟨m, hm, hmb⟩ := hlines b hb
  obtain ⟨s, hs, hsl, -⟩ := h.forward_of_mem_lines hindex hl
  obtain ⟨t, ht, htm, -⟩ := h.forward_of_mem_lines hindex hm
  rw [hla, Road.idOf_congr hids .forward, ← hmb, ht] at hs
  obtain rfl : t = s := congrArg Road.street (Option.some.inj hs)
  exact hne (by rw [← hla, ← hsl, htm, hmb])

end Points

end RoadMap

end RoadMatching
