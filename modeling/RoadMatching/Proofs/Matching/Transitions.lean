import RoadMatching.Geo.Earth
import RoadMatching.Matching.Model
import RoadMatching.Proofs.Matching.Streets
import RoadMatching.Proofs.Routing.Targets

/-!
The transitions between all candidates, beside those between two of them.

The transitions of a sample are found by one search from each predecessor, for all candidates at
once. They are the transitions between each two candidates, except where another candidate ends the
search: the search takes labels by time, but the limit is on length, so that a fast road beyond the
limit cuts off slower ones within it.

* `RoadMap.built_ofList`: the graph of a map is built.
* `Table.collect`: the table of values under the keys of a list; `Table.find?_collect`.
* `transitions_eq`: the transitions as such a table, if no search is late.
* `Matcher.blocker?`: the candidate that ends the search from a predecessor.
* `transitions_pairwise`: between two candidates stands their transition, or nothing if another
  candidate ends the search. `transitions_pairwise_junction`: it stands there where none does.
* `transitions_cut_off`: a candidate on a motorway beyond the limit ends the search before a slow
  lane is reached.
-/

namespace RoadMatching

/-! ### Maps -/

/-- The graph of a map of streets is built. -/
lemma RoadMap.built_ofList {K : Type} [Zero K] [LT K] [DecidableLT K] (streets : List (Street K)) :
    (RoadMap.ofList streets).construct.graph.Built :=
  (made_ofList streets).construct.built

/-- The order of binary64 numbers is that of their ranks. -/
instance Binary64.instTransOrd : Std.TransOrd Binary64 :=
  inferInstanceAs (Std.TransCmp (compareOn Binary64.rank))

/-! ### Tables -/

namespace Table

variable {κ β ι : Type} [DecidableEq κ] {key : ι → κ} {value : ι → Option β}

/-- The table with the values there are, each under its key. -/
def collect (key : ι → κ) (value : ι → Option β) (table : Table κ β) (xs : List ι) : Table κ β :=
  xs.foldl
    (fun table x =>
      match value x with
      | some v => table.insert (key x) v
      | none => table)
    table

lemma find?_collect_of_not_mem (table : Table κ β) {xs : List ι} {k : κ} (hk : k ∉ xs.map key) :
    (collect key value table xs).find? k = table.find? k := by
  induction xs generalizing table with
  | nil => rfl
  | cons x xs ih =>
    rw [List.map_cons, List.mem_cons, not_or] at hk
    rw [collect, List.foldl_cons, ← collect, ih _ hk.2]
    cases value x with
    | none => rfl
    | some v => exact (find?_insert ..).trans (if_neg hk.1)

/-- Under each key stands its value, if the keys are distinct. -/
lemma find?_collect {xs : List ι} (hnodup : (xs.map key).Nodup) {x : ι} (hx : x ∈ xs) :
    (collect key value empty xs).find? (key x) = value x := by
  suffices h : ∀ table : Table κ β, table.find? (key x) = none →
      (collect key value table xs).find? (key x) = value x from h empty (find?_empty _)
  intro table hnew
  induction xs generalizing table with
  | nil => cases hx
  | cons y xs ih =>
    rw [List.map_cons, List.nodup_cons] at hnodup
    rw [collect, List.foldl_cons, ← collect]
    rcases List.mem_cons.1 hx with rfl | hx
    · rw [find?_collect_of_not_mem _ hnodup.1]
      cases value x with
      | none => exact hnew
      | some v => exact (find?_insert ..).trans (if_pos rfl)
    · refine ih hnodup.2 hx _ ?_
      have hne : key x ≠ key y := fun h => hnodup.1 (h ▸ List.mem_map_of_mem hx)
      cases value y with
      | none => exact hnew
      | some v => exact ((find?_insert ..).trans (if_neg hne)).trans hnew

end Table

namespace Matcher

variable {K : Type} [NatCast K] [IntCast K] [Zero K] [One K] [Add K] [Sub K] [Mul K] [Div K]
  [BEq K] [LT K] [DecidableLT K] [Ord K] {m : Matcher K} {before after : Sample K}
  {predecessors candidates : List (RoadCandidate K)}

/-! ### The search from a predecessor -/

/-- The roads of the routes from a predecessor to the candidates, one for each. -/
def routesTo (m : Matcher K) (before after : Sample K) (candidates : List (RoadCandidate K))
    (p : RoadCandidate K) : List (Option (List Int)) :=
  m.map.graph.routesFrom Road.timePriority (some (m.limit before after)) p.payload.spot
    (candidates.map fun c => c.payload.spot)

/-- The candidate whose label stands over the limit when the search from a predecessor ends. -/
def blocker? (m : Matcher K) (before after : Sample K) (candidates : List (RoadCandidate K))
    (p : RoadCandidate K) : Option Nat :=
  m.map.graph.blocker? Road.timePriority (some (m.limit before after)) [p.payload.spot]
    (candidates.map fun c => c.payload.spot)

lemma names_zip_routesTo (m : Matcher K) (before after : Sample K) (p : RoadCandidate K) :
    ((candidates.zip (m.routesTo before after candidates p)).map fun x => x.1.id) =
      candidates.map Candidate.id := by
  have hlen : candidates.length ≤ (m.routesTo before after candidates p).length := by
    simp [routesTo, Graph.routesFrom, Graph.routes]
  conv_rhs => rw [← List.map_fst_zip hlen, List.map_map]
  rfl

/-! ### Tables of transitions -/

variable [Geodesy K] [Analysis K] [Neg K] [LE K] [DecidableLE K]

/-- The transitions from a predecessor as a table of the candidates. -/
lemma transitionsFrom_eq (p : RoadCandidate K) :
    m.transitionsFrom before after candidates p =
      Table.collect (fun x => x.1.id)
        (fun x => x.2.bind (m.along before p.payload after x.1.payload)) .empty
        (candidates.zip (m.routesTo before after candidates p)) := by
  rw [transitionsFrom, Table.collect]
  congr 1
  funext table ⟨c, roads⟩
  dsimp only
  cases roads.bind (m.along before p.payload after c.payload) <;> rfl

/-- Only candidates have transitions. -/
lemma mem_of_find?_transitionsFrom {p : RoadCandidate K} {id : CandidateId}
    (h : ((m.transitionsFrom before after candidates p).find? id).isSome) :
    id ∈ candidates.map Candidate.id := by
  by_contra hnot
  rw [← names_zip_routesTo m before after p] at hnot
  rw [transitionsFrom_eq, Table.find?_collect_of_not_mem _ hnot] at h
  cases h

/-- The transition to a candidate goes along the route to it. -/
lemma find?_transitionsFrom (hc : (candidates.map Candidate.id).Nodup) {p c : RoadCandidate K}
    {i : Nat} (hi : candidates[i]? = some c) {roads : Option (List Int)}
    (hroads : (m.routesTo before after candidates p)[i]? = some roads) :
    (m.transitionsFrom before after candidates p).find? c.id =
      roads.bind (m.along before p.payload after c.payload) := by
  rw [← names_zip_routesTo m before after p] at hc
  have hzip : (c, roads) ∈ candidates.zip (m.routesTo before after candidates p) :=
    List.mem_of_getElem? (List.getElem?_zip_eq_some.2 ⟨hi, hroads⟩)
  rw [transitionsFrom_eq]
  exact Table.find?_collect hc hzip

/-- If no search is late, the transitions are those from each predecessor. -/
lemma transitions_eq {elapsed : RoadCandidate K → Nat}
    (htime : ∀ limit ∈ m.config.timeout, ∀ p ∈ predecessors, elapsed p ≤ limit) :
    m.transitions before predecessors after candidates elapsed =
      .ok (Table.collect Candidate.id
        (fun p => some (m.transitionsFrom before after candidates p)) .empty predecessors) := by
  have hrun : m.config.pool.run
      (fun p => some (p.id, m.transitionsFrom before after candidates p)) predecessors elapsed =
        .ok _ := Outcome.settle_map_some htime
  rw [transitions, hrun]
  simp only [List.foldl_map]
  rfl

/-- **Transitions between all and between two**: for predecessors and candidates of distinct names,
none of whose searches is late, the table has entries for them only. Between a predecessor and a
candidate it has their transition, or it has none and the search from the predecessor has been ended
by another candidate, whose label was over the limit. -/
theorem transitions_pairwise [Std.TransOrd K] (hmap : m.map.graph.Built)
    {elapsed : RoadCandidate K → Nat}
    (htime : ∀ limit ∈ m.config.timeout, ∀ p ∈ predecessors, elapsed p ≤ limit)
    (hp : (predecessors.map Candidate.id).Nodup) (hc : (candidates.map Candidate.id).Nodup) :
    ∃ table, m.transitions before predecessors after candidates elapsed = .ok table ∧
      (∀ a b, (table.between? a b).isSome →
        a ∈ predecessors.map Candidate.id ∧ b ∈ candidates.map Candidate.id) ∧
      ∀ p ∈ predecessors, ∀ (i : Nat) c, candidates[i]? = some c →
        table.between? p.id c.id = m.transition before p after c ∨
          table.between? p.id c.id = none ∧
            ∃ j, j ≠ i ∧ j < candidates.length ∧
              m.blocker? before after candidates p = some j := by
  refine ⟨_, transitions_eq htime, fun a b hab => ?_, fun p hmem i c hi => ?_⟩
  · have ha : a ∈ predecessors.map Candidate.id := by
      by_contra hnot
      rw [Transitions.between?, Table.find?_collect_of_not_mem _ hnot] at hab
      cases hab
    obtain ⟨p, hmem, rfl⟩ := List.mem_map.1 ha
    rw [Transitions.between?, Table.find?_collect hp hmem, Option.bind_some] at hab
    exact ⟨ha, mem_of_find?_transitionsFrom hab⟩
  · have htarget : (candidates.map fun c => c.payload.spot)[i]? = some c.payload.spot := by
      rw [List.getElem?_map, hi, Option.map_some]
    obtain ⟨answer, alone, hanswer, halone, hcases⟩ := routes_alone hmap Road.timePriority
      (some (m.limit before after)) [p.payload.spot] htarget
    have hroads : (m.routesTo before after candidates p)[i]? = some (answer.map Prod.snd) := by
      rw [routesTo, Graph.routesFrom, List.getElem?_map, hanswer, Option.map_some]
    have htransition : m.transition before p after c =
        (alone.map Prod.snd).bind (m.along before p.payload after c.payload) := by
      rw [transition, Graph.route?, Graph.routesFrom, halone]
      rfl
    rw [Transitions.between?, Table.find?_collect hp hmem, Option.bind_some,
      find?_transitionsFrom hc hi hroads, htransition]
    rcases hcases with rfl | ⟨rfl, j, hne, hlt, hblocked⟩
    · exact .inl rfl
    · exact .inr ⟨rfl, j, hne, by rwa [List.length_map] at hlt, hblocked⟩

/-! ### A junction -/

namespace Junction

/-- A one-way street. -/
def street (id source target : Int) (speed length : Nat) : Street Binary64 where
  id := id
  refid := id
  source := source
  target := target
  oneway := true
  category := 0
  priority := 1
  speedForward := speed
  speedBackward := speed
  length := length
  geometry := []

/-- A street that leads to a motorway of five kilometres and to a slow lane. -/
def matcher : Matcher Binary64 where
  map := (RoadMap.ofList
    [street 1 0 1 50 100, street 2 1 2 130 5000, street 3 1 3 10 500]).construct
  config := .standard

def sample (time : Int) : Sample Binary64 := ⟨"", time, ⟨0, 0⟩, none⟩

/-- A candidate at a fraction of a road. -/
def candidate (id : CandidateId) (road : Int) (num den : Nat) : RoadCandidate Binary64 :=
  .new id ⟨⟨road, ratio num den⟩, ⟨0, 0⟩, 0⟩

def onStreet : RoadCandidate Binary64 := candidate "street" 2 1 2

def onLane : RoadCandidate Binary64 := candidate "lane" 6 2 5

end Junction

open Junction in
/-- At the junction, positions within a kilometre are reached together as each is alone, by a search
that takes three of four milliseconds. -/
theorem transitions_pairwise_junction :
    let limited : Matcher Binary64 :=
      { matcher with config := { Config.standard with timeout := some 4 } }
    ∃ table, limited.transitions (sample 0) [onStreet] (sample 10000)
        [candidate "motorway" 4 1 20, onLane] (fun _ => 3) = .ok table ∧
      table.between? "street" "motorway" =
        limited.transition (sample 0) onStreet (sample 10000) (candidate "motorway" 4 1 20) ∧
      table.between? "street" "lane" =
        limited.transition (sample 0) onStreet (sample 10000) onLane := by
  intro limited
  have hnone : limited.blocker? (sample 0) (sample 10000) [candidate "motorway" 4 1 20, onLane]
      onStreet = none := by decide +kernel
  obtain ⟨table, htable, -, hall⟩ : ∃ table, limited.transitions (sample 0) [onStreet]
      (sample 10000) [candidate "motorway" 4 1 20, onLane] (fun _ => 3) = .ok table ∧ _ ∧ _ :=
    transitions_pairwise (RoadMap.built_ofList _) (by simp [limited]) (by decide) (by decide)
  refine ⟨table, htable, ?_, ?_⟩
  · exact (hall _ List.mem_cons_self 0 _ rfl).resolve_right (by simp [hnone])
  · exact (hall _ List.mem_cons_self 1 _ rfl).resolve_right (by simp [hnone])

open Junction in
/-- A position far along the motorway takes away the route to the lane, which is short enough. -/
theorem transitions_cut_off :
    matcher.map.graph.Built ∧
      ∃ table, matcher.transitions (sample 0) [onStreet] (sample 10000)
          [candidate "motorway" 4 1 4, onLane] = .ok table ∧
        table.between? "street" "lane" = none ∧
        (matcher.transition (sample 0) onStreet (sample 10000) onLane).map
          (fun found => found.1.roads) = some [2, 6] :=
  ⟨RoadMap.built_ofList _, _, transitions_eq (by decide), by decide +kernel, by decide +kernel⟩

end Matcher

end RoadMatching
