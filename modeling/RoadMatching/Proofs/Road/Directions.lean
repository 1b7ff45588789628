import RoadMatching.Number.Binary64
import RoadMatching.Proofs.Matching.Streets
import RoadMatching.Proofs.Routing.Changes

/-!
The two directions of a street on a map.

A street that is added puts its roads in the place of the roads of their identifiers. A one-way street
has no backward road, so the backward road of an earlier street of its identifier stays where it is,
with the ends and the line of that other street.

* `Street.leads`, `Street.mem_roads_iff`: the directions in which a street has a road.
* `get?_add`: a street that is added takes the place of its roads and of no others.
* `Change`, `after`, `added`: the changes of a map, the map after some of them, and the streets added
  by them. `last?`: the last street that was added with a road in a direction;
  `get?_after`: its road is the one on the map.
* `directions_after`: **the roads of an identifier**. The forward road is that of the last street
  added, the backward road that of the last two-way street. They are the roads of one street unless a
  one-way street came after a two-way one.
* `directions_mixed`: a street that becomes one-way keeps the backward road of the street before.
-/

namespace RoadMatching

variable {K : Type}

/-! ### Streets -/

namespace Street

/-- Whether a street has a road in a direction. -/
def leads (s : Street K) : Heading → Bool
  | .forward => true
  | .backward => !s.oneway

/-- The roads of a street are those in the directions in which it leads. -/
lemma mem_roads_iff {s : Street K} {r : Road K} :
    r ∈ s.roads ↔ r.street = s ∧ s.leads r.heading = true := by
  obtain ⟨street, heading⟩ := r
  cases honeway : s.oneway <;> cases heading <;> simp [roads, leads, honeway]

end Street

namespace RoadMap

/-! ### Adding a street -/

/-- A street takes the place of the roads in its directions, and of no others. -/
lemma get?_add {map : RoadMap K} (hg : map.graph.Distinct) {street : Street K}
    (hstreet : Road.Doubles street.id) {n : Int} (hn : Road.Doubles n) (heading : Heading) :
    (map.add street).graph.get? (Road.idOf n heading) =
      if street.id = n ∧ street.leads heading = true then some (Road.edge ⟨street, heading⟩)
      else map.graph.get? (Road.idOf n heading) := by
  have hid : ∀ h : Heading, Road.idOf n heading = (Road.edge ⟨street, h⟩ : Edge (Road K)).id ↔
      street.id = n ∧ heading = h := by
    intro h
    rw [eq_comm (a := street.id)]
    exact Road.idOf_inj hn hstreet
  cases honeway : street.oneway with
  | true =>
    have hadd : (map.add street).graph = map.graph.add (Road.edge ⟨street, .forward⟩) := by
      simp [RoadMap.add, Street.roads, honeway]
    rw [hadd, Graph.get?_add hg]
    cases heading <;> simp [hid, Street.leads, honeway]
  | false =>
    have hadd : (map.add street).graph =
        (map.graph.add (Road.edge ⟨street, .forward⟩)).add (Road.edge ⟨street, .backward⟩) := by
      simp [RoadMap.add, Street.roads, honeway]
    rw [hadd, Graph.get?_add (hg.add _), Graph.get?_add hg]
    cases heading <;> simp [hid, Street.leads, honeway]

/-! ### Changes in turn -/

/-- A change of a map. -/
inductive Change (K : Type) where
  | add (street : Street K)
  | construct
  | deconstruct

/-- The street that a change adds. -/
def Change.street? : Change K → Option (Street K)
  | .add street => some street
  | .construct | .deconstruct => none

/-- The streets that changes add, in turn. -/
def added (changes : List (Change K)) : List (Street K) := changes.filterMap Change.street?

/-- The last street that changes add under an identifier with a road in a direction. The forward
direction is one of every street. -/
def last? (n : Int) (heading : Heading) (changes : List (Change K)) : Option (Street K) :=
  (added changes).reverse.find? fun s => s.id == n && s.leads heading

lemma last?_concat (n : Int) (heading : Heading) (changes : List (Change K)) (c : Change K) :
    last? n heading (changes ++ [c]) =
      (c.street?.filter fun s => s.id == n && s.leads heading).or (last? n heading changes) := by
  rw [last?, added, List.filterMap_append, List.reverse_append, List.find?_append]
  cases c with
  | add street =>
    cases h : (street.id == n && street.leads heading) <;>
      simp [Change.street?, last?, added, Option.filter, h]
  | construct | deconstruct => rfl

/-- A last street is one of those added, of the identifier and with a road in the direction. -/
lemma mem_added_of_last? {n : Int} {heading : Heading} {changes : List (Change K)} {s : Street K}
    (h : last? n heading changes = some s) :
    s ∈ added changes ∧ s.id = n ∧ s.leads heading = true := by
  have hfind := List.find?_some h
  rw [Bool.and_eq_true, beq_iff_eq] at hfind
  exact ⟨List.mem_reverse.1 (List.mem_of_find?_eq_some h), hfind⟩

variable [Zero K] [LT K] [DecidableLT K]

/-- The map after a change. -/
def change (map : RoadMap K) : Change K → RoadMap K
  | .add street => map.add street
  | .construct => map.construct
  | .deconstruct => map.deconstruct

/-- The map after changes of the empty one. -/
def after (changes : List (Change K)) : RoadMap K := changes.foldl change .empty

lemma after_concat (changes : List (Change K)) (c : Change K) :
    after (changes ++ [c]) = (after changes).change c := by
  rw [after, List.foldl_concat]
  rfl

lemma made_after (changes : List (Change K)) : (after changes).Made := by
  refine List.foldlRecOn changes change .empty fun map h c _ => ?_
  cases c with
  | add street => exact h.add street
  | construct => exact h.construct
  | deconstruct => exact h.deconstruct

/-- The road in a direction is that of the last street that has one. -/
lemma get?_after {changes : List (Change K)} (hdoubles : ∀ s ∈ added changes, Road.Doubles s.id)
    {n : Int} (hn : Road.Doubles n) (heading : Heading) :
    (after changes).graph.get? (Road.idOf n heading) =
      (last? n heading changes).map fun s => Road.edge ⟨s, heading⟩ := by
  induction changes using List.reverseRecOn with
  | nil =>
    simp [after, RoadMap.empty, Graph.empty, Graph.get?, Graph.indexOf?, last?, added]
  | append_singleton changes c ih =>
    rw [added, List.filterMap_append, ← added] at hdoubles
    have ih := ih fun s hs => hdoubles s (List.mem_append_left _ hs)
    rw [after_concat, last?_concat]
    cases c with
    | add street =>
      have hstreet : Road.Doubles street.id :=
        hdoubles street (List.mem_append_right _ List.mem_cons_self)
      rw [change, get?_add (made_after changes).built.distinct hstreet hn, ih]
      split
      · next h => simp [Change.street?, Option.filter, h]
      · next h =>
        have hfalse : (street.id == n && street.leads heading) = false := by simpa using h
        simp [Change.street?, Option.filter, hfalse]
    | construct => exact ih
    | deconstruct => exact ih

/-! ### Both directions -/

omit [Zero K] [LT K] [DecidableLT K] in
/-- If the last street is a two-way street, it is the last one with a backward road too. -/
lemma last?_backward {changes : List (Change K)} {n : Int} {s : Street K}
    (h : last? n .forward changes = some s) (htwoway : s.oneway = false) :
    last? n .backward changes = some s := by
  rw [last?, List.find?_eq_some_iff_append] at h ⊢
  obtain ⟨hs, before, later, heq, hbefore⟩ := h
  refine ⟨?_, before, later, heq, fun t ht => ?_⟩
  · simpa [Street.leads, htwoway] using hs
  · have hid : ¬ t.id = n := by simpa [Street.leads] using hbefore t ht
    simp [hid]

/-- The roads of a map in the directions of the streets of an identifier. -/
def directions (map : RoadMap K) (n : Int) : List (Road K) :=
  (map.road? (2 * n)).toList ++ (map.road? (2 * n + 1)).toList

/-- **The roads of an identifier**: the forward road is that of the last street added, and the
backward road is that of the last two-way street, between its ends and along its line the other way
round. They are the roads of the last street exactly if it is a two-way street, or no street of the
identifier ever was one. -/
theorem directions_after {changes : List (Change K)}
    (hdoubles : ∀ s ∈ added changes, Road.Doubles s.id) {n : Int} {s : Street K}
    (hs : last? n .forward changes = some s) :
    (after changes).graph.get? (2 * n) =
        some ⟨2 * n, s.source, s.target, ⟨s, .forward⟩⟩ ∧
      (after changes).graph.get? (2 * n + 1) =
        (last? n .backward changes).map
          (fun t => ⟨2 * n + 1, t.target, t.source, ⟨t, .backward⟩⟩) ∧
      (∀ r, (after changes).road? (2 * n + 1) = some r →
        r.geometry = r.street.geometry.reverse) ∧
      ((after changes).directions n = s.roads ↔
        s.oneway = false ∨ last? n .backward changes = none) := by
  obtain ⟨hmem, rfl, -⟩ := mem_added_of_last? hs
  have hn := hdoubles s hmem
  have hforward := get?_after hdoubles hn .forward
  have hbackward := get?_after hdoubles hn .backward
  rw [Road.idOf_forward hn, hs, Option.map_some] at hforward
  rw [Road.idOf_backward hn] at hbackward
  have hroad : (after changes).road? (2 * s.id + 1) =
      (last? s.id .backward changes).map fun t => ⟨t, .backward⟩ := by
    rw [road?, hbackward, Option.map_map]
    rfl
  refine ⟨?_, ?_, fun r hr => ?_, ?_⟩
  · rw [hforward, Road.edge, Road.id, Road.idOf_forward hn]
    rfl
  · rw [hbackward]
    refine Option.map_congr fun t ht => ?_
    obtain ⟨-, hid, -⟩ := mem_added_of_last? ht
    rw [Road.edge, Road.id, hid, Road.idOf_backward hn]
    rfl
  · rw [hroad, Option.map_eq_some_iff] at hr
    obtain ⟨t, -, rfl⟩ := hr
    rfl
  · rw [directions, hroad, road?, hforward, Option.map_some, Option.toList_some,
      List.singleton_append, Street.roads]
    cases honeway : s.oneway with
    | true =>
      cases last? s.id .backward changes <;> simp [Road.edge]
    | false => simp [last?_backward hs honeway, Road.edge]

/-! ### A street that becomes one-way -/

namespace Narrowing

/-- A street under one and the same identifier. -/
def street (source target : Int) (oneway : Bool) : Street Binary64 where
  id := 1
  refid := 1
  source := source
  target := target
  oneway := oneway
  category := 0
  priority := 1
  speedForward := 50
  speedBackward := 50
  length := 100
  geometry := []

/-- A two-way street is added, and then a one-way street elsewhere. -/
def changes : List (Change Binary64) :=
  [.add (street 0 1 false), .construct, .add (street 5 6 true)]

lemma doubles : ∀ s ∈ added changes, Road.Doubles s.id := by
  simp [added, changes, Change.street?, street, Road.Doubles]

end Narrowing

open Narrowing in
/-- The forward road is that of the one-way street, the backward road still that of the other. -/
theorem directions_after_narrowing :
    last? 1 .forward changes = some (street 5 6 true) ∧
      (after changes).graph.get? 2 = some ⟨2, 5, 6, ⟨street 5 6 true, .forward⟩⟩ ∧
      (after changes).graph.get? 3 = some ⟨3, 1, 0, ⟨street 0 1 false, .backward⟩⟩ := by
  obtain ⟨hforward, hbackward, -⟩ := directions_after doubles (n := 1)
    (s := street 5 6 true) rfl
  exact ⟨rfl, hforward, hbackward⟩

open Narrowing in
/-- So the roads of an identifier are not always those of the last street added under it. -/
theorem directions_mixed :
    ¬ ∀ changes : List (Change Binary64), (∀ s ∈ added changes, Road.Doubles s.id) →
      ∀ n s, last? n .forward changes = some s → (after changes).directions n = s.roads := by
  intro h
  have hroads := congrArg List.length (h changes doubles 1 (street 5 6 true) rfl)
  have hlength : ((after changes).directions 1).length = 2 := by decide +kernel
  rw [hlength] at hroads
  cases hroads

end RoadMap

end RoadMatching
