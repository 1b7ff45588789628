import RoadMatching.Graph.Path
import RoadMatching.Proofs.Routing.Adjacency

/-!
Trips, the other way to say what a valid path is.

A path is given as a whole. A trip is made edge by edge, as a search makes it, and its cost grows on
the way.

* `Cost.IsFair`: what costs are assumed to be: a part of an edge costs at least nothing and at most
  the whole, and more of it no less. Costs in proportion to the fraction (`Cost.isFair_linear`) and
  to its square (`Cost.isFair_square`) are fair.
* `Trip`: the trips from one of the sources to the end of an edge; `Arrival`: those up to a target.
* `Trip.cost_eq`: the cost gathered is that of the edges; `exists_trip`: each linked list of edges
  from a source is a trip.
* `arrival_iff_isValid`: the trips that arrive at a target are the valid paths to it, at their cost.
-/

namespace RoadMatching

variable {α K : Type} {g : Graph α} {cost : Cost α K} {sources : List (Spot K)}

/-! ### Costs -/

section Fair

variable [Field K] [LinearOrder K] [IsStrictOrderedRing K]

/-- A part of an edge costs something between nothing and the whole, and more of it no less. -/
structure Cost.IsFair (cost : Cost α K) (g : Graph α) : Prop where
  part_nonneg : ∀ e ∈ g.edges, ∀ x, 0 ≤ x → x ≤ 1 → 0 ≤ cost.part e.label x
  part_le_full : ∀ e ∈ g.edges, ∀ x, 0 ≤ x → x ≤ 1 → cost.part e.label x ≤ cost.full e.label
  part_mono : ∀ e ∈ g.edges, ∀ x y, 0 ≤ x → x ≤ y → y ≤ 1 →
    cost.part e.label x ≤ cost.part e.label y

/-- A cost in proportion to the fraction is fair if no edge has a negative one. -/
lemma Cost.isFair_linear {full : α → K} (h : ∀ e ∈ g.edges, 0 ≤ full e.label) :
    (Cost.linear full).IsFair g where
  part_nonneg e he _ hx _ := mul_nonneg (h e he) hx
  part_le_full e he _ _ hx := mul_le_of_le_one_right (h e he) hx
  part_mono e he _ _ _ hxy _ := mul_le_mul_of_nonneg_left hxy (h e he)

/-- A cost that grows with the square of the fraction is fair if no edge has a negative one. -/
lemma Cost.isFair_square {g : Graph K} (h : ∀ e ∈ g.edges, 0 ≤ e.label) :
    (Cost.square : Cost K K).IsFair g where
  part_nonneg e he _ hx _ := mul_nonneg (mul_nonneg (h e he) hx) hx
  part_le_full e he x hx hx1 := by
    have h1 : e.label * x ≤ e.label := mul_le_of_le_one_right (h e he) hx1
    exact (mul_le_of_le_one_right (mul_nonneg (h e he) hx) hx1).trans h1
  part_mono e he x y hx hxy _ := by
    have h1 : e.label * x ≤ e.label * y := mul_le_mul_of_nonneg_left hxy (h e he)
    exact mul_le_mul h1 hxy hx (mul_nonneg (h e he) (hx.trans hxy))

/-- A whole edge costs at least nothing. -/
lemma Cost.IsFair.full_nonneg (hc : cost.IsFair g) {e : Edge α} (he : e ∈ g.edges) :
    0 ≤ cost.full e.label :=
  (hc.part_nonneg e he 0 le_rfl zero_le_one).trans
    (hc.part_le_full e he 0 le_rfl zero_le_one)

end Fair

/-! ### Trips -/

section Trip

variable [One K] [Add K] [Sub K]

/-- The trips from a source along the edges listed, the last of which has the index given, at the
cost gathered on the way to its end. -/
inductive Trip (g : Graph α) (cost : Cost α K) (sources : List (Spot K)) :
    Spot K → List Int → Nat → K → Prop
  | start {source : Spot K} {i : Nat} {e : Edge α} (hs : source ∈ sources)
      (hi : g.indexOf? source.edge = some i) (he : g.at? i = some e) :
      Trip g cost sources source [source.edge] i (cost.part e.label (1 - source.fraction))
  | next {source : Spot K} {ids : List Int} {i j : Nat} {c : K} {e : Edge α}
      (h : Trip g cost sources source ids i c) (hj : j ∈ g.successorIndices i)
      (he : g.at? j = some e) :
      Trip g cost sources source (ids ++ [e.id]) j (c + cost.full e.label)

/-- The trips that end at a target: ahead of the source on its own edge, or on an edge entered after
another one. What remains of the last edge is not paid. -/
inductive Arrival (g : Graph α) (cost : Cost α K) (sources : List (Spot K)) [LT K]
    (target : Spot K) : Spot K → List Int → K → Prop
  | ahead {source : Spot K} {i : Nat} {e : Edge α} (hs : source ∈ sources)
      (hedge : source.edge = target.edge) (hi : g.indexOf? source.edge = some i)
      (he : g.at? i = some e) (hf : ¬ target.fraction < source.fraction) :
      Arrival g cost sources target source [source.edge]
        (cost.part e.label (1 - source.fraction) - cost.part e.label (1 - target.fraction))
  | entering {source : Spot K} {ids : List Int} {i j : Nat} {c : K} {e : Edge α}
      (h : Trip g cost sources source ids i c) (hj : j ∈ g.successorIndices i)
      (ht : g.indexOf? target.edge = some j) (he : g.at? j = some e) :
      Arrival g cost sources target source (ids ++ [e.id])
        (c + cost.full e.label - cost.part e.label (1 - target.fraction))

/-- A trip starts at one of the sources. -/
lemma Trip.mem_sources {source : Spot K} {ids : List Int} {i : Nat} {c : K}
    (h : Trip g cost sources source ids i c) : source ∈ sources := by
  induction h with
  | start hs _ _ => exact hs
  | next _ _ _ ih => exact ih

/-- A trip starts on the edge of its source. -/
lemma Trip.head? {source : Spot K} {ids : List Int} {i : Nat} {c : K}
    (h : Trip g cost sources source ids i c) : ids.head? = some source.edge := by
  induction h with
  | start _ _ _ => rfl
  | next _ _ _ ih => rw [List.head?_append, ih, Option.some_or]

/-- A trip has an edge. -/
lemma Trip.ne_nil {source : Spot K} {ids : List Int} {i : Nat} {c : K}
    (h : Trip g cost sources source ids i c) : ids ≠ [] := by
  rintro rfl
  exact absurd h.head? (by simp)

/-- Only a target on the graph is arrived at. -/
lemma Arrival.known [LT K] {source target : Spot K} {ids : List Int} {c : K}
    (h : Arrival g cost sources target source ids c) : ∃ i, g.indexOf? target.edge = some i := by
  cases h with
  | ahead _ hedge hi _ _ => exact ⟨_, hedge ▸ hi⟩
  | entering _ _ hi _ => exact ⟨_, hi⟩

/-- The last edge of a trip is the one at its index. -/
lemma Trip.getLast? {source : Spot K} {ids : List Int} {i : Nat} {c : K}
    (h : Trip g cost sources source ids i c) :
    ∃ e, g.at? i = some e ∧ ids.getLast? = some e.id := by
  cases h with
  | start _ hi he =>
    obtain ⟨f, hf, hid⟩ := Graph.at?_of_indexOf? hi
    rw [he, Option.some.injEq] at hf
    exact ⟨_, he, by rw [hf, hid, List.getLast?_singleton]⟩
  | next _ _ he => exact ⟨_, he, List.getLast?_concat⟩

/-- Consecutive edges of a trip are linked. -/
lemma Trip.isLinked (hg : g.Distinct) {source : Spot K} {ids : List Int} {i : Nat} {c : K}
    (h : Trip g cost sources source ids i c) : Path.isLinked g ids = true := by
  induction h with
  | start _ _ _ => rfl
  | @next ids i j c e h hj he ih =>
    obtain ⟨a, ha, hlast⟩ := h.getLast?
    refine (Path.isLinked_concat hlast).2 ⟨ih, (Graph.isSuccessor_iff hg).2 ⟨i, j, ?_, hj, ?_⟩⟩
    · exact (Graph.indexOf?_eq_some_iff hg).2 ⟨a, ha, rfl⟩
    · exact (Graph.indexOf?_eq_some_iff hg).2 ⟨e, he, rfl⟩

/-- A trip to the end of the edge of a target arrives at the target, unless its only edge is the one
of the target and the target lies behind the source. -/
lemma Trip.arrival [LT K] {source target : Spot K} {ids : List Int} {j : Nat} {c : K} {e : Edge α}
    (h : Trip g cost sources source ids j c) (ht : g.indexOf? target.edge = some j)
    (he : g.at? j = some e) (hahead : ids.length = 1 → ¬ target.fraction < source.fraction) :
    Arrival g cost sources target source ids (c - cost.part e.label (1 - target.fraction)) := by
  cases h with
  | start hs hi hf =>
    obtain ⟨a, ha, hid⟩ := Graph.at?_of_indexOf? hi
    obtain ⟨b, hb, hid'⟩ := Graph.at?_of_indexOf? ht
    rw [he, Option.some.injEq] at ha hb hf
    subst ha hb hf
    exact .ahead hs (hid.symm.trans hid') hi he (hahead rfl)
  | next htrip hj hf =>
    rw [he, Option.some.injEq] at hf
    subst hf
    exact .entering htrip hj ht he

/-- A list of edges that arrives at a target makes a valid path. -/
lemma Arrival.valid [LT K] [DecidableLT K] (hg : g.Distinct) {source target : Spot K}
    {ids : List Int} {c : K} (h : Arrival g cost sources target source ids c) :
    source ∈ sources ∧ (⟨source, target, ids⟩ : Path K).isValid g = true := by
  cases h with
  | ahead hs hedge hi he hf =>
    exact ⟨hs, by simp [Path.isValid, Path.isLinked, hedge, hf]⟩
  | @entering ids i j c e h hj ht he =>
    have hnext := h.next hj he
    obtain ⟨f, hf, hid⟩ := Graph.at?_of_indexOf? ht
    rw [he, Option.some.injEq] at hf
    have hlen : ((ids ++ [e.id]).length == 1) = false := by
      have hne := h.ne_nil
      simpa using hne
    have hhead := hnext.head?
    have hlast : (ids ++ [e.id]).getLast? = some target.edge := by
      rw [List.getLast?_concat, hf, hid]
    have hlinked := hnext.isLinked hg
    refine ⟨h.mem_sources, ?_⟩
    simp only [Path.isValid, hhead, hlast, hlen, hlinked, beq_self_eq_true, Bool.and_false,
      Bool.not_false, Bool.and_self]

/-- Linked edges from the edge of a source on are a trip. -/
lemma exists_trip (cost : Cost α K) (hg : g.Distinct) {source : Spot K} (hs : source ∈ sources)
    {ids : List Int}
    (hhead : ids.head? = some source.edge) (hlinked : Path.isLinked g ids = true) {last : Int}
    {i : Nat} (hlast : ids.getLast? = some last) (hi : g.indexOf? last = some i) :
    ∃ c, Trip g cost sources source ids i c := by
  induction ids using List.reverseRecOn generalizing last i with
  | nil => cases hhead
  | append_singleton ids b ih =>
    rw [List.getLast?_concat, Option.some.injEq] at hlast
    subst hlast
    obtain ⟨e, he, rfl⟩ := Graph.at?_of_indexOf? hi
    cases hl : ids.getLast? with
    | none =>
      rw [List.getLast?_eq_none_iff] at hl
      subst hl
      rw [List.nil_append, List.head?_cons, Option.some.injEq] at hhead
      rw [hhead] at hi ⊢
      exact ⟨_, .start hs hi he⟩
    | some a =>
      rw [Path.isLinked_concat hl] at hlinked
      obtain ⟨k, j, hk, hj, hb⟩ := (Graph.isSuccessor_iff hg).1 hlinked.2
      rw [hi, Option.some.injEq] at hb
      subst hb
      have hhead' : ids.head? = some source.edge := by
        cases ids with
        | nil => cases hl
        | cons x xs => exact hhead
      obtain ⟨c, hc⟩ := ih hhead' hlinked.1 hl hk
      exact ⟨_, hc.next hj he⟩

end Trip

/-! ### Trips and paths -/

section Paths

variable [Field K]

lemma total_eq_sum (xs : List K) : total xs = xs.sum := by
  rw [total, neg_zero, List.sum_eq_foldl]

/-- The cost of edges in a row is the sum of the costs. -/
lemma Path.fullCost_append (ids others : List Int) :
    Path.fullCost g cost (ids ++ others) =
      Path.fullCost g cost ids + Path.fullCost g cost others := by
  simp [Path.fullCost, total_eq_sum]

/-- The cost of a list of edges with one more at the end. -/
lemma Path.fullCost_concat {ids : List Int} {e : Edge α} (he : g.get? e.id = some e) :
    Path.fullCost g cost (ids ++ [e.id]) = Path.fullCost g cost ids + cost.full e.label := by
  rw [fullCost_append]
  simp [Path.fullCost, total_eq_sum, he]

/-- The cost gathered on a trip is that of the rest of its first edge and of its other edges. -/
lemma Trip.cost_eq (hg : g.Distinct) {source : Spot K} {ids : List Int} {i : Nat} {c : K}
    (h : Trip g cost sources source ids i c) :
    c = Path.remainder g cost source + Path.fullCost g cost ids.tail := by
  induction h with
  | start _ hi he =>
    simp [Path.remainder, Graph.get?_of_indexOf? hi he, Path.fullCost, total_eq_sum]
  | @next ids i j c e h hj he ih =>
    have hne : ids ≠ [] := h.ne_nil
    have hget : g.get? e.id = some e := (Graph.get?_eq_some_iff hg).2 ⟨j, he, rfl⟩
    rw [List.tail_append_of_ne_nil hne, Path.fullCost_concat hget, ih, add_assoc]

variable [LinearOrder K]

/-- A list of edges that arrives at a target makes a valid path, whose cost is the one paid. -/
lemma Arrival.isValid (hg : g.Distinct) {source target : Spot K} {ids : List Int} {c : K}
    (h : Arrival g cost sources target source ids c) :
    source ∈ sources ∧ (⟨source, target, ids⟩ : Path K).isValid g = true ∧
      c = Path.cost g cost ⟨source, target, ids⟩ := by
  obtain ⟨hsource, hvalid⟩ := h.valid hg
  refine ⟨hsource, hvalid, ?_⟩
  cases h with
  | ahead hs hedge hi he hf =>
    have hget := Graph.get?_of_indexOf? hi he
    simp [Path.cost, Path.remainder, hget, ← hedge, Path.fullCost, total_eq_sum]
  | @entering ids i j c e h hj ht he =>
    obtain ⟨f, hf, hid⟩ := Graph.at?_of_indexOf? ht
    rw [he, Option.some.injEq] at hf
    have hget : g.get? target.edge = some e :=
      (Graph.get?_eq_some_iff hg).2 ⟨j, he, by rw [hf, hid]⟩
    rw [Path.cost, ← (h.next hj he).cost_eq hg, Path.remainder, hget]

/-- A valid path from one of the sources to a target on the graph is a trip that arrives there. -/
lemma exists_arrival (cost : Cost α K) (hg : g.Distinct) {p : Path K} (hs : p.source ∈ sources)
    (hv : p.isValid g = true) {j : Nat} (ht : g.indexOf? p.target.edge = some j) :
    ∃ c, Arrival g cost sources p.target p.source p.edges c := by
  simp only [Path.isValid, Bool.and_eq_true, beq_iff_eq] at hv
  obtain ⟨⟨⟨hhead, hlast⟩, hback⟩, hlinked⟩ := hv
  obtain ⟨e, he, hid⟩ := Graph.at?_of_indexOf? ht
  rcases List.eq_nil_or_concat p.edges with hnil | ⟨ids, b, hids⟩
  · rw [hnil] at hhead
    cases hhead
  · rw [hids, List.concat_eq_append] at hhead hlast hback hlinked ⊢
    rw [List.getLast?_concat, Option.some.injEq] at hlast
    subst hlast
    cases hl : ids.getLast? with
    | none =>
      rw [List.getLast?_eq_none_iff] at hl
      subst hl
      rw [List.nil_append, List.head?_cons, Option.some.injEq] at hhead
      have hf : ¬ p.target.fraction < p.source.fraction := by
        intro hlt
        simp [hhead, hlt] at hback
      rw [List.nil_append, hhead]
      exact ⟨_, .ahead hs hhead.symm (hhead ▸ ht) he hf⟩
    | some a =>
      rw [Path.isLinked_concat hl] at hlinked
      obtain ⟨i, k, hi, hk, hb⟩ := (Graph.isSuccessor_iff hg).1 hlinked.2
      rw [ht, Option.some.injEq] at hb
      subst hb
      have hhead' : ids.head? = some p.source.edge := by
        cases ids with
        | nil => cases hl
        | cons x xs => exact hhead
      obtain ⟨c, hc⟩ := exists_trip cost hg hs hhead' hlinked.1 hl hi
      rw [← hid]
      exact ⟨_, .entering hc hk ht he⟩

/-- **Trips are paths**: for a target on the graph, the trips that arrive there are the valid paths
from one of the sources, and what they pay is the cost of the path. -/
theorem arrival_iff_isValid (hg : g.Distinct) {source target : Spot K} {ids : List Int} {c : K}
    (ht : ∃ j, g.indexOf? target.edge = some j) :
    Arrival g cost sources target source ids c ↔
      source ∈ sources ∧ (⟨source, target, ids⟩ : Path K).isValid g = true ∧
        c = Path.cost g cost ⟨source, target, ids⟩ := by
  refine ⟨fun h => h.isValid hg, ?_⟩
  rintro ⟨hs, hv, rfl⟩
  obtain ⟨j, hj⟩ := ht
  obtain ⟨c, hc⟩ := exists_arrival cost (p := ⟨source, target, ids⟩) hg hs hv hj
  obtain ⟨-, -, rfl⟩ := hc.isValid hg
  exact hc

end Paths

end RoadMatching
