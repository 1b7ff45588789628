import RoadMatching.Proofs.Routing.Trace

/-!
Routes are paths.

Nothing is assumed of costs here: they may be negative or undefined, and in any order. What a search
answers is read off its entries, and these alone say that it is a path.

* `sound_run`: the labels of a search stand for what they say, however long it runs.
* `Path.isValid_iff`: what it means that a path is valid.
* `routes_sound`: a route starts at one of the sources, and it is a valid path to its target.
  `routes_sound_downhill`: it is so where costs fall along the way, and where a source is overtaken by
  another one on its edge.
* `Sound.route?_step`: the route to a goal stays as it is once the goal is finished, since an edge is
  not entered again.
-/

namespace RoadMatching

variable {α K : Type} {g : Graph α} {cost : Cost α K} {limit : Option (Limit α K)}
  {sources targets : List (Spot K)}

/-! ### Valid paths -/

/-- What it means that a path is valid. -/
lemma Path.isValid_iff [LT K] [DecidableLT K] {p : Path K} :
    p.isValid g = true ↔ p.edges.head? = some p.source.edge ∧
      p.edges.getLast? = some p.target.edge ∧
      (p.edges.length = 1 → ¬ p.target.fraction < p.source.fraction) ∧
      p.edges.IsChain fun a b => g.isSuccessor a b = true := by
  have hedge : p.edges.head? = some p.source.edge → p.edges.getLast? = some p.target.edge →
      p.edges.length = 1 → p.source.edge = p.target.edge := by
    intro hhead hlast hlen
    obtain ⟨a, ha⟩ := List.length_eq_one_iff.1 hlen
    rw [ha] at hhead hlast
    exact (Option.some.inj hhead).symm.trans (Option.some.inj hlast)
  rw [isValid, ← isLinked_iff_isChain]
  simp only [Bool.and_eq_true, Bool.not_eq_true', Bool.and_eq_false_imp, beq_iff_eq,
    decide_eq_true_eq, beq_eq_false_iff_ne, and_assoc]
  refine and_congr_right fun hhead => and_congr_right fun hlast => and_congr_left fun _ => ?_
  constructor
  · intro h hlen hlt
    exact h ⟨hedge hhead hlast hlen, hlt⟩ hlen
  · rintro h ⟨-, hlt⟩ hlen
    exact h hlen hlt

/-! ### Routes are paths -/

variable [Zero K] [One K] [Add K] [Sub K] [LT K]

/-- A route is read off the label of a goal. -/
lemma Search.Sound.exists_met {s : State K} (h : Sound g cost limit sources targets s)
    {place : Nat} {answer : Spot K × List Int} (hroute : Search.route? g s place = some answer) :
    ∃ l ∈ s.finishes, l.goal = some place ∧ Met g cost limit sources targets s.entries l place ∧
      readOff g (chain s.entries l) = some answer := by
  rw [route?_eq, Option.bind_eq_some_iff] at hroute
  obtain ⟨l, hfind, hread⟩ := hroute
  have hmem := List.mem_of_find?_eq_some hfind
  have hplace : l.goal = some place := by simpa using List.find?_some hfind
  obtain ⟨p, hp, hmet⟩ := h.finished l hmem
  rw [hplace, Option.some.injEq] at hp
  subst hp
  exact ⟨l, hmem, hplace, hmet, hread⟩

variable [DecidableLT K] [Ord K]

/-- The labels of a search stand for what they say, however long it runs. -/
lemma Search.sound_run (fuel : Nat) :
    Sound g cost limit sources targets
      (run g cost limit fuel (initial g cost limit sources targets)) :=
  run_induction fuel sound_initial fun _ _ hstep h => h.step hstep

/-- The answer for a target is the route to it at the end of the search. -/
lemma Graph.getElem?_routes {i : Nat} (hi : i < targets.length) :
    (g.routes cost limit sources targets)[i]? =
      some (Search.route? g (Search.run g cost limit (Search.budget g sources targets)
        (Search.initial g cost limit sources targets)) i) := by
  simp [Graph.routes, hi]

/-- **Routes are paths**: whatever the costs and the limit, a route starts at one of the sources, and
with its source and its target it makes a valid path. Its edges lead from the edge of the source to
that of the target, each is a successor of the one before, and a route on one edge does not run
backwards. -/
theorem routes_sound (hg : g.Built) {i : Nat} {target : Spot K} (ht : targets[i]? = some target)
    {source : Spot K} {edges : List Int}
    (h : (g.routes cost limit sources targets)[i]? = some (some (source, edges))) :
    source ∈ sources ∧ Path.of? g source target edges = .ok ⟨source, target, edges⟩ ∧
      edges.head? = some source.edge ∧ edges.getLast? = some target.edge ∧
      (edges.length = 1 → ¬ target.fraction < source.fraction) ∧
      edges.IsChain fun a b => g.isSuccessor a b = true := by
  rw [Graph.getElem?_routes (List.getElem?_eq_some_iff.1 ht).1, Option.some.injEq] at h
  have hsound : Search.Sound g cost limit sources targets _ :=
    Search.sound_run (Search.budget g sources targets)
  obtain ⟨l, -, -, hmet, hread⟩ := hsound.exists_met h
  obtain ⟨source', edges', hread', c, harr⟩ := hmet.exists_route hsound.entries ht
  rw [hread, Option.some.injEq, Prod.mk.injEq] at hread'
  obtain ⟨rfl, rfl⟩ := hread'
  obtain ⟨hsource, hvalid⟩ := harr.valid hg.distinct
  exact ⟨hsource, by rw [Path.of?, if_pos hvalid], Path.isValid_iff.1 hvalid⟩

/-- A road downhill, a loop at its foot, and a road on from there. -/
def Graph.downhill : Graph ℚ :=
  (Graph.ofList [⟨1, 0, 1, -2⟩, ⟨2, 1, 1, -1⟩, ⟨3, 1, 2, 5⟩]).construct

/-- Downhill, the route starts at the source further up and takes the loop once. -/
theorem routes_sound_downhill :
    (Graph.downhill.routes Cost.weight (some ⟨Cost.hops, 3⟩) [⟨1, 1 / 2⟩, ⟨1, 0⟩]
        [⟨1, 1 / 4⟩, ⟨3, 1 / 2⟩])[1]? = some (some (⟨1, 0⟩, [1, 2, 3])) ∧
      Path.of? Graph.downhill (⟨1, 0⟩ : Spot ℚ) ⟨3, 1 / 2⟩ [1, 2, 3] =
        .ok ⟨⟨1, 0⟩, ⟨3, 1 / 2⟩, [1, 2, 3]⟩ := by
  have hroute : (Graph.downhill.routes Cost.weight (some ⟨Cost.hops, 3⟩) [⟨1, 1 / 2⟩, ⟨1, 0⟩]
      [⟨1, 1 / 4⟩, ⟨3, 1 / 2⟩])[1]? = some (some (⟨1, 0⟩, [1, 2, 3])) := by decide +kernel
  have hbuilt : Graph.downhill.Built := (Graph.Built.ofList _).construct
  obtain ⟨-, hpath, -⟩ := routes_sound hbuilt
    (show [(⟨1, 1 / 4⟩ : Spot ℚ), ⟨3, 1 / 2⟩][1]? = some _ from rfl) hroute
  exact ⟨hroute, hpath⟩

/-! ### Finished routes stay -/

namespace Search

omit [Zero K] [One K] [Add K] [Sub K] [LT K] [DecidableLT K] [Ord K] in
/-- Entries of other edges than the one before a label do not change its chain. -/
lemma chain_append {new entries : List (Label K)} {l : Label K}
    (h : ∀ n ∈ new, l.previous ≠ some n.edge) : chain (new ++ entries) l = chain entries l := by
  induction new with
  | nil => rfl
  | cons n new ih =>
    rw [List.cons_append, chain, if_neg (h n List.mem_cons_self)]
    exact ih fun m hm => h m (List.mem_cons_of_mem n hm)

omit [LT K] [DecidableLT K] in
/-- An expansion enters edges that have not been entered. -/
lemma exists_new_entries (cost : Cost α K) (limit : Option (Limit α K)) (l : Label K)
    (s : State K) :
    ∃ new, (expand g cost limit l s).entries = new ++ s.entries ∧
      ∀ n ∈ new, s.entry? n.edge = none := by
  refine expand_induction (motive := fun t => ∃ new, t.entries = new ++ s.entries ∧
    ∀ n ∈ new, s.entry? n.edge = none) ⟨[], rfl, fun n hn => absurd hn List.not_mem_nil⟩ ?_ ?_
  · rintro t index edge goal - - - ⟨new, hnew, hfresh⟩
    exact ⟨new, hnew, hfresh⟩
  · rintro t index edge - - hnone ⟨new, hnew, hfresh⟩
    refine ⟨nextLabel cost limit l index edge :: new, ?_, fun n hn => ?_⟩
    · rw [State.entries_enter, hnew, List.cons_append]
    · rcases List.mem_cons.1 hn with rfl | hn
      · rw [State.entry?, hnew, List.find?_append, Option.or_eq_none_iff] at hnone
        exact hnone.2
      · exact hfresh n hn

omit [DecidableLT K] [Ord K] in
/-- The edge before the label of a goal has been entered. -/
lemma Met.exists_entry {entries : List (Label K)} {l : Label K} {place edge : Nat}
    (h : Met g cost limit sources targets entries l place) (hp : l.previous = some edge) :
    ∃ m ∈ entries, m.edge = edge := by
  obtain ⟨whole, goal, e, rfl, -, -, -, -, hs, -⟩ := h
  cases hs with
  | start _ _ _ hp' _ _ _ =>
    have hnone : whole.previous = some edge := hp
    rw [hp'] at hnone
    cases hnone
  | @next m _ hm _ _ hp' _ _ =>
    have hsome : whole.previous = some edge := hp
    rw [hp', Option.some.injEq] at hsome
    exact ⟨m, hm, hsome⟩

/-- The route to a finished goal is the same after another step. -/
theorem Sound.route?_step {s t : State K} (h : Sound g cost limit sources targets s)
    (hstep : Search.step g cost limit s = some t) {place : Nat} (hdone : s.isFinished place = true) :
    t.isFinished place = true ∧ route? g t place = route? g s place := by
  obtain ⟨l, rest, -, -, ⟨-, rfl⟩ | ⟨other, hother, rfl⟩⟩ := step_cases hstep
  · have hfinishes : (Search.expand g cost limit l { s with queue := rest }).finishes = s.finishes :=
      (extends_expand l _).finishes
    refine ⟨by rw [State.isFinished, hfinishes]; exact hdone, ?_⟩
    obtain ⟨new, hnew, hfresh⟩ := exists_new_entries (g := g) cost limit l { s with queue := rest }
    rw [route?_eq, route?_eq, hfinishes]
    refine Option.bind_congr fun m hm => ?_
    obtain ⟨p, hp, hmet⟩ := h.finished m (List.mem_of_find?_eq_some hm)
    rw [hnew, chain_append fun n hn hprevious => ?_]
    obtain ⟨r, hr, hedge⟩ := hmet.exists_entry hprevious
    have hnone := hfresh n hn
    rw [State.entry?, List.find?_eq_none] at hnone
    exact hnone r hr (by simp [hedge])
  · rw [Search.finish]
    split
    · exact ⟨hdone, rfl⟩
    · next hnew =>
      have hne : ¬ l.goal = some place := by
        intro hl
        rw [hother, Option.some.injEq] at hl
        exact hnew (hl ▸ hdone)
      refine ⟨?_, ?_⟩
      · rw [State.isFinished_iff] at hdone ⊢
        obtain ⟨m, hm, hm'⟩ := hdone
        exact ⟨m, List.mem_cons_of_mem l hm, hm'⟩
      · rw [route?_eq, route?_eq]
        simp [hne]

end Search

end RoadMatching
