import RoadMatching.Proofs.Routing.Steps
import RoadMatching.Proofs.Routing.Trip

/-!
What the labels of a search stand for.

Every label is supported: by a source, or by an earlier entry from whose edge its own was entered.
Followed back, the label of a goal therefore gives a trip from a source that arrives at the goal.

* `Supported`, `Recorded`: the support of a label, and of all entries by the older ones. An entry
  that takes the place of another one is cheaper.
* `Met`: a label that reaches a goal is that of a supported one, less what remains behind the goal.
* `Sound`: the invariant; `sound_initial` and `Sound.step` show it, for any costs and any limit.
* `chain_of_next`: a chain goes back to the newest entry of the edge before. `chain_induction`: what
  the start and the next label of a chain hand on is true of what is read off it.
* `exists_trip_of_chain`: the chain of a supported label is a trip, for any costs.
  `exists_fair_trip`: it costs at most what the label says. A label may cost more, since an entry may
  have been replaced by a cheaper one; if it does not, it says what the trip spends of the limit.
* `Met.exists_whole`: the route to a goal is read off the label that travels its edge in full.
  `Met.exists_route`, `Met.exists_fair_arrival`: it arrives at the goal, at no higher cost than the
  label of the goal says.
-/

namespace RoadMatching.Search

variable {α K : Type} {g : Graph α} {cost : Cost α K} {limit : Option (Limit α K)}
  {sources targets : List (Spot K)}

/-! ### Goals -/

/-- The goals are the targets on edges of the graph. -/
lemma mem_goals {goal : Goal K} :
    goal ∈ goals g targets ↔ ∃ target, targets[goal.place]? = some target ∧
      g.indexOf? target.edge = some goal.edge ∧ goal.fraction = target.fraction := by
  simp only [goals, List.mem_filterMap, Prod.exists, List.mem_zipIdx_iff_getElem?,
    Option.map_eq_some_iff]
  constructor
  · rintro ⟨target, place, htarget, edge, hedge, rfl⟩
    exact ⟨target, htarget, hedge, rfl⟩
  · rintro ⟨target, htarget, hedge, hf⟩
    exact ⟨target, goal.place, htarget, goal.edge, hedge, by rw [← hf]⟩

/-! ### Support -/

section Support

variable [Zero K] [One K] [Add K] [Sub K]

/-- A label starts at a source, or follows an entry of the edge before it, and its cost and what it
has spent of the limit are according. -/
inductive Supported (g : Graph α) (cost : Cost α K) (limit : Option (Limit α K))
    (sources : List (Spot K)) (entries : List (Label K)) (l : Label K) : Prop
  | start {source : Spot K} {e : Edge α} (hs : source ∈ sources)
      (hi : g.indexOf? source.edge = some l.edge) (he : g.at? l.edge = some e)
      (hp : l.previous = none) (ho : l.origin = some source)
      (hc : l.cost = cost.part e.label (1 - source.fraction))
      (hb : l.spent = spentPart limit e.label (1 - source.fraction))
  | next {m : Label K} {e : Edge α} (hm : m ∈ entries)
      (hj : l.edge ∈ g.successorIndices m.edge) (he : g.at? l.edge = some e)
      (hp : l.previous = some m.edge) (hc : l.cost = m.cost + cost.full e.label)
      (hb : l.spent = m.spent + spentFull limit e.label)

lemma Supported.mono {entries entries' : List (Label K)} (h : entries ⊆ entries') {l : Label K}
    (hl : Supported g cost limit sources entries l) : Supported g cost limit sources entries' l := by
  cases hl with
  | start hs hi he hp ho hc hb => exact .start hs hi he hp ho hc hb
  | next hm hj he hp hc hb => exact .next (h hm) hj he hp hc hb

/-- Each entry is supported by the older ones, and cheaper than the one that it replaces. -/
def Recorded (g : Graph α) (cost : Cost α K) (limit : Option (Limit α K))
    (sources : List (Spot K)) [LT K] : List (Label K) → Prop
  | [] => True
  | l :: older =>
    Supported g cost limit sources older l ∧
      (∀ m, older.find? (fun x => x.edge == l.edge) = some m → l.cost < m.cost) ∧
      Recorded g cost limit sources older

lemma Recorded.of_suffix [LT K] {entries older : List (Label K)} (h : older <:+ entries)
    (hr : Recorded g cost limit sources entries) : Recorded g cost limit sources older := by
  induction entries with
  | nil => rwa [List.suffix_nil.1 h]
  | cons l entries ih =>
    rcases List.suffix_cons_iff.1 h with rfl | h
    · exact hr
    · exact ih h hr.2.2

end Support

/-! ### The invariant -/

section Sound

variable [Zero K] [One K] [Add K] [Sub K] [LT K]

/-- A label reaches the goal of a place: it is that of a supported label on the edge of the goal,
which does not start behind the goal. -/
def Met (g : Graph α) (cost : Cost α K) (limit : Option (Limit α K))
    (sources targets : List (Spot K)) (entries : List (Label K)) (l : Label K) (place : Nat) :
    Prop :=
  ∃ whole goal e, l = upTo cost limit e whole goal ∧ goal.place = place ∧
    goal ∈ goals g targets ∧ whole.edge = goal.edge ∧ g.at? whole.edge = some e ∧
    Supported g cost limit sources entries whole ∧
    ∀ source, whole.previous = none → whole.origin = some source →
      ¬ goal.fraction < source.fraction

lemma Met.mono {entries entries' : List (Label K)} (h : entries ⊆ entries') {l : Label K}
    {place : Nat} (hl : Met g cost limit sources targets entries l place) :
    Met g cost limit sources targets entries' l place := by
  obtain ⟨whole, goal, e, hup, hplace, hgoal, hedge, he, hs, hahead⟩ := hl
  exact ⟨whole, goal, e, hup, hplace, hgoal, hedge, he, hs.mono h, hahead⟩

/-- The labels of a search stand for what they say. -/
structure Sound (g : Graph α) (cost : Cost α K) (limit : Option (Limit α K))
    (sources targets : List (Spot K)) (s : State K) : Prop where
  entries : Recorded g cost limit sources s.entries
  entered : ∀ l ∈ s.queue, l.goal = none → l ∈ s.entries
  reached : ∀ l ∈ s.queue, ∀ place, l.goal = some place →
    Met g cost limit sources targets s.entries l place
  finished : ∀ l ∈ s.finishes, ∃ place, l.goal = some place ∧
    Met g cost limit sources targets s.entries l place
  pending : ∀ goal ∈ s.pending, goal ∈ goals g targets

lemma Sound.taken {s : State K} (h : Sound g cost limit sources targets s) {l : Label K}
    {rest : List (Label K)} (hq : s.queue = l :: rest) :
    Sound g cost limit sources targets { s with queue := rest } := by
  have hsub : ∀ m ∈ rest, m ∈ s.queue := fun m hm => hq ▸ List.mem_cons_of_mem l hm
  exact ⟨h.entries, fun m hm => h.entered m (hsub m hm), fun m hm => h.reached m (hsub m hm),
    h.finished, h.pending⟩

variable [Ord K]

/-- Letting the label of a goal wait keeps the invariant. -/
lemma Sound.push {s : State K} (h : Sound g cost limit sources targets s) {l : Label K}
    {place : Nat} (hplace : l.goal = some place)
    (hl : Met g cost limit sources targets s.entries l place) :
    Sound g cost limit sources targets (s.push l) where
  entries := h.entries
  entered m hm hnone := by
    rcases State.mem_queue_push.1 hm with rfl | hm
    · rw [hplace] at hnone
      cases hnone
    · exact h.entered m hm hnone
  reached m hm p hp := by
    rcases State.mem_queue_push.1 hm with rfl | hm
    · rw [hplace, Option.some.injEq] at hp
      exact hp ▸ hl
    · exact h.reached m hm p hp
  finished := h.finished
  pending := h.pending

/-- Entering an edge by a supported label keeps the invariant. -/
lemma Sound.enter {s : State K} (h : Sound g cost limit sources targets s) {l : Label K}
    (hgoal : l.goal = none) (hl : Supported g cost limit sources s.entries l)
    (hlt : ∀ m, s.entry? l.edge = some m → l.cost < m.cost) :
    Sound g cost limit sources targets (s.enter l) := by
  have hsub : s.entries ⊆ (s.enter l).entries := List.subset_cons_self l s.entries
  refine ⟨⟨hl, hlt, h.entries⟩, fun m hm hnone => ?_, fun m hm p hp => ?_, fun m hm => ?_,
    h.pending⟩
  · rcases State.mem_queue_enter.1 hm with rfl | hm
    · exact List.mem_cons_self
    · exact hsub (h.entered m hm hnone)
  · rcases State.mem_queue_enter.1 hm with rfl | hm
    · rw [hgoal] at hp
      cases hp
    · exact (h.reached m hm p hp).mono hsub
  · obtain ⟨p, hp, hmet⟩ := h.finished m hm
    exact ⟨p, hp, hmet.mono hsub⟩

/-- The invariant holds at the start. -/
lemma sound_initial [DecidableLT K] :
    Sound g cost limit sources targets (initial g cost limit sources targets) := by
  refine initial_induction ?_ ?_ ?_
  · exact ⟨trivial, fun _ h => absurd h List.not_mem_nil, fun _ h => absurd h List.not_mem_nil,
      fun _ h => absurd h List.not_mem_nil, fun _ h => h⟩
  · intro t source index edge goal hs hi he hgoal hf h
    rw [State.mem_goalsOn] at hgoal
    refine h.push rfl ⟨_, goal, edge, rfl, rfl, h.pending goal hgoal.1, hgoal.2.symm, he,
      .start hs hi he rfl rfl rfl rfl, ?_⟩
    rintro other - ho
    cases ho
    exact hf
  · intro t source index edge hs hi he hlt h
    exact h.enter rfl (.start hs hi he rfl rfl rfl rfl) hlt

/-- An expansion keeps the invariant. -/
lemma Sound.expand {s : State K} (h : Sound g cost limit sources targets s) {l : Label K}
    (hl : l ∈ s.entries) :
    Sound g cost limit sources targets (expand g cost limit l s) := by
  suffices h' : Sound g cost limit sources targets (Search.expand g cost limit l s) ∧
      l ∈ (Search.expand g cost limit l s).entries from h'.1
  refine expand_induction (motive := fun t => Sound g cost limit sources targets t ∧ l ∈ t.entries)
    ⟨h, hl⟩ ?_ ?_
  · rintro t index edge goal hindex he hgoal ⟨ht, hlt⟩
    rw [State.mem_goalsOn] at hgoal
    refine ⟨ht.push rfl ⟨_, goal, edge, rfl, rfl, ht.pending goal hgoal.1, hgoal.2.symm, he,
      .next hlt hindex he rfl rfl rfl, ?_⟩, hlt⟩
    rintro other hnone
    cases hnone
  · rintro t index edge hindex he hnone ⟨ht, hlt⟩
    refine ⟨ht.enter rfl (.next hlt hindex he rfl rfl rfl) ?_, List.mem_cons_of_mem _ hlt⟩
    intro m hm
    have hm' : t.entry? index = some m := hm
    rw [hnone] at hm'
    cases hm'

omit [Ord K] in
/-- Finishing a goal by a label that reaches it keeps the invariant. -/
lemma Sound.finish {s : State K} (h : Sound g cost limit sources targets s) {l : Label K}
    {place : Nat} (hplace : l.goal = some place)
    (hl : Met g cost limit sources targets s.entries l place) :
    Sound g cost limit sources targets (finish l place s) := by
  rw [Search.finish]
  split
  · exact h
  · refine ⟨h.entries, h.entered, h.reached, fun m hm => ?_,
      fun goal hgoal => h.pending goal (List.mem_of_mem_filter hgoal)⟩
    rcases List.mem_cons.1 hm with rfl | hm
    · exact ⟨place, hplace, hl⟩
    · exact h.finished m hm

/-- Every step keeps the invariant. -/
lemma Sound.step [DecidableLT K] {s t : State K} (h : Sound g cost limit sources targets s)
    (hstep : step g cost limit s = some t) : Sound g cost limit sources targets t := by
  obtain ⟨l, rest, hq, -, ⟨hgoal, rfl⟩ | ⟨place, hplace, rfl⟩⟩ := step_cases hstep
  · have hl : l ∈ s.queue := hq ▸ List.mem_cons_self
    exact (h.taken hq).expand (h.entered l hl hgoal)
  · have hl : l ∈ s.queue := hq ▸ List.mem_cons_self
    exact (h.taken hq).finish hplace (h.reached l hl place hplace)

end Sound

/-! ### Chains -/

section Chain

/-- The chain of a start is the start alone. -/
lemma chain_of_start {entries : List (Label K)} {l : Label K} (h : l.previous = none) :
    chain entries l = [l] := by
  induction entries with
  | nil => rfl
  | cons entry older ih => rw [chain, h, if_neg (by simp), ih]

/-- The chain of any other label goes back to the newest entry of the edge before it. -/
lemma chain_of_next {entries : List (Label K)} {l m : Label K} (h : l.previous = some m.edge)
    (hm : m ∈ entries) :
    ∃ entry older, (entry :: older) <:+ entries ∧ entry.edge = m.edge ∧ m ∈ entry :: older ∧
      chain entries l = chain older entry ++ [l] := by
  induction entries with
  | nil => cases hm
  | cons first older ih =>
    rw [chain]
    split
    · next hfirst =>
      rw [h, Option.some.injEq] at hfirst
      exact ⟨first, older, List.suffix_rfl, hfirst.symm, hm, rfl⟩
    · next hfirst =>
      have hne : m ≠ first := by
        rintro rfl
        exact hfirst h
      obtain ⟨entry, rest, hsuf, hedge, hmem, heq⟩ := ih (List.mem_of_ne_of_mem hne hm)
      exact ⟨entry, rest, hsuf.trans (List.suffix_cons first older), hedge, hmem, heq⟩

/-- Labels with the same predecessor have the same labels before them. -/
lemma exists_chain_eq (entries : List (Label K)) {l m : Label K} (h : l.previous = m.previous) :
    ∃ labels, chain entries l = labels ++ [l] ∧ chain entries m = labels ++ [m] := by
  induction entries with
  | nil => exact ⟨[], rfl, rfl⟩
  | cons entry older ih =>
    rw [chain, chain, ← h]
    split
    · exact ⟨_, rfl, rfl⟩
    · exact ih

/-- The source and the edges of a chain. -/
def readOff (g : Graph α) (labels : List (Label K)) : Option (Spot K × List Int) := do
  let origin ← labels.head?.bind Label.origin
  let edges ← labels.mapM fun l => (g.at? l.edge).map Edge.id
  return (origin, edges)

lemma readOff_singleton {l : Label K} {source : Spot K} {e : Edge α}
    (ho : l.origin = some source) (he : g.at? l.edge = some e) :
    readOff g [l] = some (source, [e.id]) := by
  simp [readOff, ho, he]

lemma readOff_concat {labels : List (Label K)} {source : Spot K} {ids : List Int} {l : Label K}
    {e : Edge α} (h : readOff g labels = some (source, ids)) (he : g.at? l.edge = some e) :
    readOff g (labels ++ [l]) = some (source, ids ++ [e.id]) := by
  simp only [readOff, bind, Option.bind_eq_some_iff, pure, Option.some.injEq, Prod.mk.injEq] at h
  obtain ⟨origin, horigin, edges, hedges, rfl, rfl⟩ := h
  obtain ⟨first, hfirst, ho⟩ := horigin
  simp [readOff, List.head?_append, hfirst, ho, hedges, he]

/-- What is read off a label depends on its predecessor, its edge and its origin alone. -/
lemma readOff_chain_congr {entries : List (Label K)} {l m : Label K}
    (hp : l.previous = m.previous) (he : l.edge = m.edge) (ho : l.origin = m.origin) :
    readOff g (chain entries l) = readOff g (chain entries m) := by
  obtain ⟨labels, hl, hm⟩ := exists_chain_eq entries hp
  rw [hl, hm, readOff, readOff]
  cases labels <;> simp [he, ho]

lemma route?_eq (s : State K) (place : Nat) :
    route? g s place =
      (s.finishes.find? fun l => l.goal == some place).bind fun l =>
        readOff g (chain s.entries l) := rfl

/-- A goal not finished has no route. -/
lemma route?_of_not_finished {s : State K} {place : Nat} (h : s.isFinished place = false) :
    route? g s place = none := by
  have hnone : s.finishes.find? (fun l => l.goal == some place) = none := by
    simpa [State.isFinished] using h
  rw [route?_eq, hnone, Option.bind_none]

end Chain

/-! ### Trips of labels -/

section Trips

variable [Zero K] [One K] [Add K] [Sub K] [LT K]

/-- What the start of a chain has, and every next label takes over from the newest entry of the edge
before it, is true of what is read off. The newest entry need not be the one that supports the next
label. -/
theorem chain_induction {motive : Label K → Spot K → List Int → Prop}
    (start : ∀ l source e, source ∈ sources → g.indexOf? source.edge = some l.edge →
      g.at? l.edge = some e → l.previous = none → l.origin = some source →
      l.cost = cost.part e.label (1 - source.fraction) →
      l.spent = spentPart limit e.label (1 - source.fraction) → motive l source [source.edge])
    (next : ∀ l m entry older e source ids, Recorded g cost limit sources (entry :: older) →
      m ∈ entry :: older → entry.edge = m.edge → l.edge ∈ g.successorIndices m.edge →
      g.at? l.edge = some e → l.cost = m.cost + cost.full e.label →
      l.spent = m.spent + spentFull limit e.label → motive entry source ids →
      motive l source (ids ++ [e.id]))
    {entries : List (Label K)} (hr : Recorded g cost limit sources entries) {l : Label K}
    (hl : Supported g cost limit sources entries l) :
    ∃ source ids, readOff g (chain entries l) = some (source, ids) ∧ motive l source ids := by
  induction hn : entries.length using Nat.strong_induction_on generalizing entries l with
  | _ n ih =>
    cases hl with
    | @start source e hs hi he hp ho hc hb =>
      obtain ⟨f, hf, hid⟩ := Graph.at?_of_indexOf? hi
      rw [he, Option.some.injEq] at hf
      refine ⟨source, [source.edge], ?_, start l source e hs hi he hp ho hc hb⟩
      rw [chain_of_start hp, readOff_singleton ho he, hf, hid]
    | @next m e hm hj he hp hc hb =>
      obtain ⟨entry, older, hsuf, hedge, hmem, hchain⟩ := chain_of_next hp hm
      have hrec := hr.of_suffix hsuf
      have hlt : older.length < n := by
        have := hsuf.length_le
        rw [List.length_cons] at this
        omega
      obtain ⟨source, ids, hread, hmotive⟩ := ih _ hlt hrec.2.2 hrec.1 rfl
      refine ⟨source, ids ++ [e.id], ?_, ?_⟩
      · rw [hchain, readOff_concat hread he]
      · exact next l m entry older e source ids hrec hmem hedge hj he hc hb hmotive

/-- **A chain is a trip**: what is read off a supported label is a trip to the end of its edge. A
trip of one edge is read off a start. -/
theorem exists_trip_of_chain {entries : List (Label K)}
    (hr : Recorded g cost limit sources entries) {l : Label K}
    (hl : Supported g cost limit sources entries l) :
    ∃ source ids, readOff g (chain entries l) = some (source, ids) ∧
      (∃ c, Trip g cost sources source ids l.edge c) ∧
      (ids.length = 1 → l.previous = none ∧ l.origin = some source) := by
  refine chain_induction (motive := fun l source ids =>
    (∃ c, Trip g cost sources source ids l.edge c) ∧
      (ids.length = 1 → l.previous = none ∧ l.origin = some source)) ?_ ?_ hr hl
  · intro l source e hs hi he hp ho _ _
    exact ⟨⟨_, .start hs hi he⟩, fun _ => ⟨hp, ho⟩⟩
  · rintro l m entry older e source ids - - hedge hj he - - ⟨⟨c, htrip⟩, -⟩
    refine ⟨⟨_, htrip.next (hedge ▸ hj) he⟩, fun hlen => ?_⟩
    have hne := htrip.ne_nil
    simp [hne] at hlen

/-- The route to a goal is read off the label that travels the edge of the goal in full. -/
lemma Met.exists_whole {entries : List (Label K)} {l : Label K} {place : Nat}
    (hl : Met g cost limit sources targets entries l place) {target : Spot K}
    (ht : targets[place]? = some target) :
    ∃ whole e, Supported g cost limit sources entries whole ∧
      g.indexOf? target.edge = some whole.edge ∧ g.at? whole.edge = some e ∧
      l = upTo cost limit e whole ⟨place, whole.edge, target.fraction⟩ ∧
      readOff g (chain entries l) = readOff g (chain entries whole) ∧
      ∀ source, whole.previous = none → whole.origin = some source →
        ¬ target.fraction < source.fraction := by
  obtain ⟨whole, goal, e, rfl, rfl, hgoal, hedge, he, hs, hahead⟩ := hl
  obtain ⟨target', ht', hindex, hfrac⟩ := mem_goals.1 hgoal
  rw [ht, Option.some.injEq] at ht'
  subst ht'
  refine ⟨whole, e, hs, hedge ▸ hindex, he, ?_, readOff_chain_congr rfl rfl rfl, ?_⟩
  · rw [upTo, upTo, hfrac]
  · rw [← hfrac]
    exact hahead

/-- **A label of a goal has its route**: what is read off it arrives at the target, for any costs. -/
theorem Met.exists_route {entries : List (Label K)}
    (hr : Recorded g cost limit sources entries) {l : Label K} {place : Nat}
    (hl : Met g cost limit sources targets entries l place) {target : Spot K}
    (ht : targets[place]? = some target) :
    ∃ source ids, readOff g (chain entries l) = some (source, ids) ∧
      ∃ c, Arrival g cost sources target source ids c := by
  obtain ⟨whole, e, hs, hi, he, -, hsame, hahead⟩ := hl.exists_whole ht
  obtain ⟨source, ids, hread, ⟨c, htrip⟩, hstart⟩ := exists_trip_of_chain hr hs
  refine ⟨source, ids, hsame.trans hread, _, htrip.arrival hi he fun hlen => ?_⟩
  obtain ⟨hp, ho⟩ := hstart hlen
  exact hahead source hp ho

end Trips

/-! ### What trips cost -/

/-- What is spent of a limit, as a cost. -/
def spending [Zero K] (limit : Option (Limit α K)) : Cost α K :=
  ⟨spentFull limit, spentPart limit⟩

section Fair

variable [Field K] [LinearOrder K]

/-- The newest entry of an edge is the cheapest. -/
lemma Recorded.eq_or_cost_lt {entries : List (Label K)}
    (h : Recorded g cost limit sources entries) {i : Nat} {newest m : Label K}
    (hnewest : entries.find? (fun x => x.edge == i) = some newest) (hm : m ∈ entries)
    (hedge : m.edge = i) : m = newest ∨ newest.cost < m.cost := by
  induction entries generalizing newest with
  | nil => cases hm
  | cons l older ih =>
    by_cases hl : l.edge = i
    · rw [List.find?_cons_of_pos (by simp [hl]), Option.some.injEq] at hnewest
      subst hnewest
      rcases List.mem_cons.1 hm with rfl | hm
      · exact .inl rfl
      · -- the entry that the newest one replaced lies between the two
        obtain ⟨second, hsecond⟩ : ∃ x, older.find? (fun x => x.edge == i) = some x :=
          Option.isSome_iff_exists.1 (List.find?_isSome.2 ⟨m, hm, by simp [hedge]⟩)
        have hlt : l.cost < second.cost := h.2.1 second (hl.symm ▸ hsecond)
        rcases ih h.2.2 hsecond hm with rfl | hlt'
        · exact .inr hlt
        · exact .inr (hlt.trans hlt')
    · rw [List.find?_cons_of_neg (by simp [hl])] at hnewest
      have hne : m ≠ l := by
        rintro rfl
        exact hl hedge
      exact ih h.2.2 hnewest (List.mem_of_ne_of_mem hne hm)

variable [IsStrictOrderedRing K]

/-- The chain of a supported label is a trip that costs at most what the label says. If it costs as
much, then each label of the chain follows the one that supports it, and the label says what the
trip spends. -/
theorem exists_fair_trip {entries : List (Label K)}
    (hr : Recorded g cost limit sources entries) {l : Label K}
    (hl : Supported g cost limit sources entries l) :
    ∃ source ids, readOff g (chain entries l) = some (source, ids) ∧
      ∃ c b, Trip g cost sources source ids l.edge c ∧
        Trip g (spending limit) sources source ids l.edge b ∧ c ≤ l.cost ∧
          (l.cost ≤ c → b = l.spent) := by
  refine chain_induction (motive := fun l source ids =>
    ∃ c b, Trip g cost sources source ids l.edge c ∧
      Trip g (spending limit) sources source ids l.edge b ∧ c ≤ l.cost ∧
        (l.cost ≤ c → b = l.spent)) ?_ ?_ hr hl
  · intro l source e hs hi he _ _ hc hb
    exact ⟨_, _, .start hs hi he, .start hs hi he, hc.ge, fun _ => hb.symm⟩
  · rintro l m entry older e source ids hrec hm hedge hj he hc hb ⟨c, b, htrip, hspend, hle, heq⟩
    refine ⟨_, _, htrip.next (hedge ▸ hj) he, hspend.next (hedge ▸ hj) he, ?_, fun hge => ?_⟩
    · have hcheap : entry.cost ≤ m.cost := by
        rcases hrec.eq_or_cost_lt (List.find?_cons_of_pos (by simp)) hm hedge.symm with rfl | hlt
        · exact le_rfl
        · exact hlt.le
      rw [hc]
      exact add_le_add_left (hle.trans hcheap) _
    · rw [hc, add_le_add_iff_right] at hge
      rcases hrec.eq_or_cost_lt (List.find?_cons_of_pos (by simp)) hm hedge.symm with rfl | hlt
      · rw [hb, heq hge]
        rfl
      · exact absurd (hge.trans hle) (not_le.2 hlt)

/-- **A finished goal has its route**: what is read off its label arrives at the target and costs at
most what the label says. If it costs as much, the label says what it spends. -/
theorem Met.exists_fair_arrival {entries : List (Label K)}
    (hr : Recorded g cost limit sources entries) {l : Label K} {place : Nat}
    (hl : Met g cost limit sources targets entries l place) {target : Spot K}
    (ht : targets[place]? = some target) :
    ∃ source ids, readOff g (chain entries l) = some (source, ids) ∧
      ∃ c b, Arrival g cost sources target source ids c ∧
        Arrival g (spending limit) sources target source ids b ∧ c ≤ l.cost ∧
          (l.cost ≤ c → b = l.spent) := by
  obtain ⟨whole, e, hs, hi, he, hup, hsame, hahead⟩ := hl.exists_whole ht
  obtain ⟨source, ids, hread, -, hstart⟩ := exists_trip_of_chain hr hs
  obtain ⟨source', ids', hread', c, b, htrip, hspend, hle, heq⟩ := exists_fair_trip hr hs
  rw [hread, Option.some.injEq, Prod.mk.injEq] at hread'
  obtain ⟨rfl, rfl⟩ := hread'
  have hfront : ids.length = 1 → ¬ target.fraction < source.fraction := by
    intro hlen
    obtain ⟨hp, ho⟩ := hstart hlen
    exact hahead source hp ho
  refine ⟨source, ids, hsame.trans hread, _, _, htrip.arrival hi he hfront,
    hspend.arrival hi he hfront, ?_, fun hge => ?_⟩
  · rw [hup]
    exact sub_le_sub_right hle _
  · rw [hup] at hge ⊢
    have hwhole : whole.cost ≤ c := (sub_le_sub_iff_right _).1 hge
    rw [heq hwhole]
    rfl

end Fair

end RoadMatching.Search
