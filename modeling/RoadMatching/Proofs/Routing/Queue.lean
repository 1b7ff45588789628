import Mathlib.Tactic
import RoadMatching.Graph.Search

/-!
The queue of a search.

Labels are put behind those that do not cost more, so that they wait in the order of their costs.

* `enqueue_perm`: nothing else comes in, and nothing is lost.
* `Ordered`: the order; `Ordered.enqueue` keeps it.
* `filterMap_enqueue`, `filterMap_enqueue_unseen`: leaving labels out and letting one wait may change
  places.
-/

namespace RoadMatching.Search

variable {K : Type} [Ord K]

/-- A label that is let wait joins those that wait already. -/
lemma enqueue_perm (l : Label K) (queue : List (Label K)) :
    (enqueue l queue).Perm (l :: queue) := by
  induction queue with
  | nil => exact .refl _
  | cons first rest ih =>
    rw [enqueue]
    split
    · exact .refl _
    · exact (ih.cons first).trans (.swap l first rest)

/-- The labels wait in the order of their costs. -/
def Ordered (queue : List (Label K)) : Prop :=
  queue.Pairwise fun l m => (compare l.cost m.cost).isLE

/-- A label that costs less than all others comes first. -/
lemma enqueue_of_lt {l : Label K} {queue : List (Label K)}
    (h : ∀ m ∈ queue, compare l.cost m.cost = .lt) : enqueue l queue = l :: queue := by
  cases queue with
  | nil => rfl
  | cons first rest =>
    rw [enqueue, h first List.mem_cons_self]
    rfl

variable [Std.TransOrd K]

lemma Ordered.lt_of_lt_head {first : Label K} {rest : List (Label K)} (h : Ordered (first :: rest))
    {l : Label K} (hlt : compare l.cost first.cost = .lt) :
    ∀ m ∈ first :: rest, compare l.cost m.cost = .lt := by
  intro m hm
  rcases List.mem_cons.1 hm with rfl | hm
  · exact hlt
  · exact Std.TransCmp.lt_of_lt_of_isLE hlt ((List.pairwise_cons.1 h).1 m hm)

lemma Ordered.enqueue {queue : List (Label K)} (h : Ordered queue) (l : Label K) :
    Ordered (enqueue l queue) := by
  induction queue with
  | nil => exact List.pairwise_singleton _ l
  | cons first rest ih =>
    obtain ⟨hfirst, hrest⟩ := List.pairwise_cons.1 h
    rw [Search.enqueue]
    split
    · next hlt =>
      have hall := h.lt_of_lt_head (Ordering.isLT_iff_eq_lt.1 hlt)
      refine List.pairwise_cons.2 ⟨fun m hm => ?_, h⟩
      rw [hall m hm]
      rfl
    · next hge =>
      have hge' : (compare first.cost l.cost).isLE := by
        rw [show compare first.cost l.cost = _ from Std.OrientedCmp.eq_swap]
        cases hc : compare l.cost first.cost <;> simp_all
      refine List.pairwise_cons.2 ⟨fun m hm => ?_, ih hrest⟩
      rcases mem_enqueue.1 hm with rfl | hm
      · exact hge'
      · exact hfirst m hm

variable {view : Label K → Option (Label K)}

/-- A label that is seen waits where it does among those that are seen. -/
lemma filterMap_enqueue (hview : ∀ l l', view l = some l' → l'.cost = l.cost)
    {queue : List (Label K)} (h : Ordered queue) {l l' : Label K} (hl : view l = some l') :
    (enqueue l queue).filterMap view = enqueue l' (queue.filterMap view) := by
  induction queue with
  | nil => simp [enqueue, hl]
  | cons first rest ih =>
    have hrest := ih (List.pairwise_cons.1 h).2
    rw [enqueue]
    split
    · next hlt =>
      have hall := h.lt_of_lt_head (Ordering.isLT_iff_eq_lt.1 hlt)
      rw [List.filterMap_cons_some hl, enqueue_of_lt fun m hm => ?_]
      obtain ⟨x, hx, hxm⟩ := List.mem_filterMap.1 hm
      rw [hview l l' hl, hview x m hxm]
      exact hall x hx
    · next hge =>
      cases hfirst : view first with
      | none => rw [List.filterMap_cons_none hfirst, List.filterMap_cons_none hfirst, hrest]
      | some first' =>
        rw [List.filterMap_cons_some hfirst, List.filterMap_cons_some hfirst, hrest, enqueue,
          hview l l' hl, hview first first' hfirst, if_neg hge]

omit [Std.TransOrd K] in
/-- A label that is not seen waits unseen. -/
lemma filterMap_enqueue_unseen {l : Label K} (hl : view l = none) (queue : List (Label K)) :
    (enqueue l queue).filterMap view = queue.filterMap view := by
  induction queue with
  | nil => simp [enqueue, hl]
  | cons first rest ih =>
    rw [enqueue]
    split
    · rw [List.filterMap_cons_none hl]
    · rw [List.filterMap_cons, List.filterMap_cons, ih]

end RoadMatching.Search
