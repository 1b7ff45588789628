import RoadMatching.Proofs.Matching.Runs
import RoadMatching.Proofs.Matching.Streets
import RoadMatching.Proofs.Matching.Transitions
import RoadMatching.Proofs.Memory.Chains

/-!
The routes that join the candidates of a match state.

A route is found by one search for all candidates of a sample, cut short by the matcher, chosen by
the filter among those from all predecessors, and kept by a memory that drops candidates and steps.
Whatever is dropped, a candidate that names a predecessor has the route from it.

* `Matcher.exists_along`: where two candidates have a transition, it goes along a valid path.
* `RoadMap.Joins`: a route of the map between the streets of two positions, and exactly between the
  positions where routes are not cut short. `Matcher.joins_along`: a transition is such a route.
* `Call.Taken.arises`: where the candidates of a vector come from, in terms of the map.
* `Call.run_joined`: **match states are joined by routes**. `Call.run_joined_street`: a walk on a
  street.
-/

namespace RoadMatching

/-! ### Tables and workers -/

/-- What is found in a collected table is a value of its list, or has been there. -/
lemma Table.exists_of_find?_collect {κ β ι : Type} [DecidableEq κ] {key : ι → κ}
    {value : ι → Option β} {table : Table κ β} {xs : List ι} {k : κ} {v : β}
    (h : (collect key value table xs).find? k = some v) :
    table.find? k = some v ∨ ∃ x ∈ xs, key x = k ∧ value x = some v := by
  induction xs generalizing table with
  | nil => exact .inl h
  | cons x xs ih =>
    rw [collect, List.foldl_cons, ← collect] at h
    rcases ih h with hfirst | ⟨y, hy, hkey, hvalue⟩
    · cases hx : value x with
      | none =>
        rw [hx] at hfirst
        exact .inl hfirst
      | some w =>
        rw [hx] at hfirst
        simp only [find?_insert] at hfirst
        split at hfirst
        · next hk => exact .inr ⟨x, List.mem_cons_self, hk.symm, hx.trans hfirst⟩
        · exact .inl hfirst
    · exact .inr ⟨y, List.mem_cons_of_mem x hy, hkey, hvalue⟩

/-! ### Transitions -/

namespace Matcher

variable {K : Type} [NatCast K] [IntCast K] [Zero K] [One K] [Add K] [Sub K] [Mul K] [Div K]
  [BEq K] [LT K] [DecidableLT K] [Ord K] [Geodesy K] [Analysis K] [Neg K] [LE K] [DecidableLE K]
  {m : Matcher K} {before after : Sample K} {predecessors candidates : List (RoadCandidate K)}

/-- A transition between two candidates goes along a valid path from one to the other. -/
lemma exists_along (hmap : m.map.graph.Built) {table : Transitions (Route K) K}
    {elapsed : RoadCandidate K → Nat}
    (h : m.transitions before predecessors after candidates elapsed = .ok table) {a b : CandidateId}
    {found : Route K × K} (hfound : table.between? a b = some found) :
    ∃ p ∈ predecessors, p.id = a ∧ ∃ c ∈ candidates, c.id = b ∧ ∃ roads,
      (⟨p.payload.spot, c.payload.spot, roads⟩ : Path K).isValid m.map.graph = true ∧
      (∀ id ∈ roads, (m.map.road? id).isSome) ∧
      m.along before p.payload after c.payload roads = some found := by
  have htable : table = Table.collect Candidate.id
      (fun p => some (m.transitionsFrom before after candidates p)) .empty predecessors := by
    rw [transitions] at h
    split at h
    · next rows hrows =>
      rw [Outcome.eq_map_of_settle hrows, List.foldl_map] at h
      exact (Except.ok.inj h).symm
    · cases h
  rw [htable, Transitions.between?, Option.bind_eq_some_iff] at hfound
  obtain ⟨row, hrow, hfound⟩ := hfound
  obtain hnone | ⟨p, hp, hpa, hrow⟩ := Table.exists_of_find?_collect hrow
  · rw [Table.find?_empty] at hnone
    cases hnone
  · obtain rfl := Option.some.inj hrow
    rw [transitionsFrom_eq] at hfound
    obtain hnone | ⟨⟨c, answer⟩, hmem, hcb, hvalue⟩ := Table.exists_of_find?_collect hfound
    · rw [Table.find?_empty] at hnone
      cases hnone
    · obtain ⟨roads, rfl, halong⟩ := Option.bind_eq_some_iff.1 hvalue
      obtain ⟨i, hi⟩ := List.mem_iff_getElem?.1 hmem
      obtain ⟨hc, hroads⟩ := List.getElem?_zip_eq_some.1 hi
      have htarget : (candidates.map fun c => c.payload.spot)[i]? = some c.payload.spot := by
        rw [List.getElem?_map, hc, Option.map_some]
      obtain ⟨hvalid, hknown⟩ := Graph.route_isValid hmap htarget hroads
      exact ⟨p, hp, hpa, c, List.mem_of_getElem? hc, hcb, roads, hvalid,
        fun id hid => RoadMap.isSome_road?_iff.2 (hknown id hid), halong⟩

end Matcher

/-! ### Routes between streets -/

section Streets

variable {K : Type}

/-- The identifier of the street of a road. -/
def RoadMap.street? (map : RoadMap K) (road : Int) : Option Int :=
  (map.road? road).map fun r => r.street.id

/-- Two positions on roads of one street. -/
def RoadMap.OnOneStreet (map : RoadMap K) (p q : RoadPoint K) : Prop :=
  ∃ street, map.street? p.road = some street ∧ map.street? q.road = some street

lemma RoadMap.OnOneStreet.refl {map : RoadMap K} {p : RoadPoint K}
    (h : (map.road? p.road).isSome) : map.OnOneStreet p p := by
  obtain ⟨r, hr⟩ := Option.isSome_iff_exists.1 h
  have hstreet : map.street? p.road = some r.street.id := by
    rw [RoadMap.street?, hr, Option.map_some]
  exact ⟨_, hstreet, hstreet⟩

variable [NatCast K] [Zero K] [One K] [Add K] [Sub K] [Mul K] [Div K] [Neg K] [LT K]
  [DecidableLT K] [BEq K]

/-- A route of the map from the street of one position to the street of another, and from the one
position to the other if routes are exact. -/
structure RoadMap.Joins (map : RoadMap K) (exact : Prop) (p c : RoadPoint K) (r : Route K) : Prop
    where
  /-- The roads lead from the source to the target, -/
  valid : r.path.isValid map.graph = true
  /-- and are on the map. -/
  known : ∀ id ∈ r.roads, (map.road? id).isSome
  /-- The length and the time are those on the map. -/
  measured : r.measured map = r
  source : map.OnOneStreet p r.source
  target : map.OnOneStreet c r.target
  ends : exact → r.source = p ∧ r.target = c

/-- The candidate `c` names `d` as its predecessor, and its transition is a route that joins them. -/
def RoadMap.Links (map : RoadMap K) (exact : Prop) (d c : RoadCandidate K) : Prop :=
  c.predecessor = some d.id ∧ ∃ r, c.transition = some r ∧ map.Joins exact d.payload c.payload r

lemma RoadMap.Joins.imp {map : RoadMap K} {exact exact' : Prop} {p c : RoadPoint K} {r : Route K}
    (h : map.Joins exact p c r) (himp : exact' → exact) : map.Joins exact' p c r :=
  { h with ends := fun he => h.ends (himp he) }

/-- A route can be made if its path is valid. -/
lemma Route.of?_eq_ok_iff {map : RoadMap K} {source target : RoadPoint K} {roads : List Int}
    {r : Route K} : Route.of? map source target roads = .ok r ↔
      (⟨source.spot, target.spot, roads⟩ : Path K).isValid map.graph = true ∧
        measured ⟨source, target, roads, 0, 0⟩ map = r := by
  rw [Route.of?, Path.of?]
  split
  · next h =>
    split at h
    · next hvalid => simp [hvalid]
    · cases h
  · next h =>
    split at h
    · cases h
    · next hvalid => simp [hvalid]

end Streets

namespace Turn

variable {K : Type} [Geodesy K] [Analysis K] [NatCast K] [Zero K] [One K] [Add K] [Sub K] [Mul K]
  [Div K] [Neg K] [BEq K] [LT K] [DecidableLT K] [LE K] [DecidableLE K] {map : RoadMap K}
  {turn short : Turn K}

omit [Geodesy K] [Analysis K] [NatCast K] [Zero K] [One K] [Add K] [Sub K] [Mul K] [Div K] [Neg K]
  [BEq K] [LT K] [DecidableLT K] [LE K] [DecidableLE K] in
/-- The first two roads belong to one street. -/
lemma of_opposite? {first second : Road K} (h : turn.opposite? map = some (first, second)) :
    ∃ a b rest, turn.roads = a :: b :: rest ∧ map.road? a = some first ∧
      map.road? b = some second ∧ first.street.id = second.street.id := by
  rw [opposite?] at h
  split at h
  · next a b rest hroads =>
    split at h
    · next first' second' ha hb =>
      split at h
      · next hstreet =>
        cases h
        exact ⟨a, b, rest, hroads, ha, hb, hstreet.1⟩
      · cases h
    · cases h
  · cases h

/-- A route cut short keeps some of its roads, and it starts and ends on the streets on which it did
before. -/
lemma onOneStreet_of_shorten? (hmap : map.Made) (h : turn.shorten? map = some short)
    (hstart : turn.roads.head? = some turn.start.road)
    (hstop : turn.roads.getLast? = some turn.stop.road)
    (hknown : ∀ id ∈ turn.roads, (map.road? id).isSome) :
    short.roads ⊆ turn.roads ∧ map.OnOneStreet turn.start short.start ∧
      map.OnOneStreet turn.stop short.stop := by
  obtain ⟨⟨first, second⟩, hopposite, rfl⟩ := Option.map_eq_some_iff.1 h
  obtain ⟨a, b, rest, hroads, ha, hb, hstreet⟩ := of_opposite? hopposite
  have hfirst : map.street? first.id = some first.street.id := by
    rw [hmap.id_of_road? ha, RoadMap.street?, ha, Option.map_some]
  have hsecond : map.street? second.id = some first.street.id := by
    rw [hmap.id_of_road? hb, RoadMap.street?, hb, Option.map_some, hstreet]
  have hstart' : map.street? turn.start.road = some first.street.id := by
    rw [hroads, List.head?_cons, Option.some.injEq] at hstart
    rw [← hstart, ← hmap.id_of_road? ha, hfirst]
  have hstay : map.OnOneStreet turn.stop turn.stop := .refl (hknown _ (List.mem_of_getLast? hstop))
  dsimp only
  split
  · exact ⟨List.tail_subset _, ⟨_, hstart', hsecond⟩, hstay⟩
  · next hlen =>
    -- the route ends on the second road
    have hstop' : map.street? turn.stop.road = some first.street.id := by
      have hnil : rest = [] := by
        rw [hroads] at hlen
        exact List.length_eq_zero_iff.1 (by simpa using hlen)
      rw [hroads, hnil, List.getLast?_cons_cons, List.getLast?_singleton, Option.some.injEq] at hstop
      rw [← hstop, ← hmap.id_of_road? hb, hsecond]
    split
    · exact ⟨List.take_subset _ _, ⟨_, hstart', hstart'⟩, ⟨_, hstop', hfirst⟩⟩
    · exact ⟨List.tail_subset _, ⟨_, hstart', hsecond⟩, hstay⟩

end Turn

namespace Matcher

variable {K : Type} [Geodesy K] [Analysis K] [NatCast K] [IntCast K] [Zero K] [One K] [Add K]
  [Sub K] [Mul K] [Div K] [Neg K] [BEq K] [LT K] [DecidableLT K] [LE K] [DecidableLE K]
  {m : Matcher K} {before after : Sample K} {p c : RoadPoint K} {roads : List Int}
  {found : Route K × K}

omit [IntCast K] in
/-- A route stays as it is, or it is cut short where the matcher does so. -/
lemma turned_cases (m : Matcher K) (p c : RoadPoint K) (roads : List Int) :
    m.turned p c roads = ⟨p, c, roads⟩ ∨ m.config.shortenTurns = true ∧
      Turn.shorten? m.map ⟨p, c, roads⟩ = some (m.turned p c roads) := by
  rw [turned]
  split
  · next hon =>
    cases hshort : Turn.shorten? m.map ⟨p, c, roads⟩ with
    | none => exact .inl rfl
    | some short => exact .inr ⟨hon, rfl⟩
  · exact .inl rfl

/-- A transition along some roads has the route over them, which may be cut short. -/
lemma of?_of_along (h : m.along before p after c roads = some found) :
    Route.of? m.map (m.turned p c roads).start (m.turned p c roads).stop
      (m.turned p c roads).roads = .ok found.1 := by
  rw [along] at h
  dsimp only at h
  split at h
  · cases h
  · next hroute =>
    cases h
    exact hroute

/-- A transition along a valid path joins its ends. -/
lemma joins_along (hmap : m.map.Made)
    (hvalid : (⟨p.spot, c.spot, roads⟩ : Path K).isValid m.map.graph = true)
    (hknown : ∀ id ∈ roads, (m.map.road? id).isSome)
    (h : m.along before p after c roads = some found) :
    m.map.Joins (m.config.shortenTurns = false) p c found.1 := by
  have hends : roads.head? = some p.road ∧ roads.getLast? = some c.road := by
    obtain ⟨hhead, hlast, -⟩ := Path.isValid_iff.1 hvalid
    exact ⟨hhead, hlast⟩
  have hp : m.map.OnOneStreet p p := .refl (hknown _ (List.mem_of_head? hends.1))
  have hc : m.map.OnOneStreet c c := .refl (hknown _ (List.mem_of_getLast? hends.2))
  obtain ⟨hsub, hstart, hstop, hexact⟩ : (m.turned p c roads).roads ⊆ roads ∧
      m.map.OnOneStreet p (m.turned p c roads).start ∧
      m.map.OnOneStreet c (m.turned p c roads).stop ∧
      (m.config.shortenTurns = false →
        (m.turned p c roads).start = p ∧ (m.turned p c roads).stop = c) := by
    rcases m.turned_cases p c roads with heq | ⟨hon, hshort⟩
    · rw [heq]
      exact ⟨List.Subset.refl _, hp, hc, fun _ => ⟨rfl, rfl⟩⟩
    · obtain ⟨hsub, hstart, hstop⟩ :=
        Turn.onOneStreet_of_shorten? hmap hshort hends.1 hends.2 hknown
      exact ⟨hsub, hstart, hstop, fun hoff => absurd (hon.symm.trans hoff) (by decide)⟩
  obtain ⟨hvalid', hmeasured⟩ := Route.of?_eq_ok_iff.1 (of?_of_along h)
  rw [← hmeasured]
  exact ⟨hvalid', fun id hid => hknown id (hsub hid), rfl, hstart, hstop, hexact⟩

end Matcher

namespace Call

variable {K : Type} [Geodesy K] [Zero K] [BEq K] [LT K] [DecidableLT K] [Analysis K] [NatCast K]
  [IntCast K] [One K] [Add K] [Sub K] [Mul K] [Div K] [Neg K] [LE K] [DecidableLE K] [Ord K]
  [Score K K] [LineTree K]

/-! ### Vectors -/

section Vectors

variable {seen : List CandidateId} {state : MatchState K} {c : Call K}
  {vector : List (RoadCandidate K)}

/-- The candidates of a vector are at positions for the sample. Each is a root, or it names one of
the last vector, which the match state holds, and has a transition from it along a valid path. -/
lemma Taken.arises (h : Taken seen state c vector) (hmap : c.matcher.map.Made) :
    ∃ points, c.matcher.positions
        ((if state.broken then [] else state.vector).map Candidate.payload) c.sample = .ok points ∧
      ∀ d ∈ vector, d.payload ∈ points ∧ (d.IsRoot ∨ ∃ p, state.candidate? p.id = some p ∧
        d.predecessor = some p.id ∧ ∃ before found roads, d.transition = some found.1 ∧
          (⟨p.payload.spot, d.payload.spot, roads⟩ : Path K).isValid c.matcher.map.graph = true ∧
          (∀ id ∈ roads, (c.matcher.map.road? id).isSome) ∧
          c.matcher.along before p.payload c.sample d.payload roads = some found) := by
  obtain ⟨candidates, hc, -, hfrom⟩ := Filter.execute_comesBy (execute_of_vectorFor h.found)
  obtain ⟨hids, hroots⟩ := c.candidates_ok hc
  have hnames : (candidates.map fun d => d.1.id).Nodup := hids ▸ h.names
  obtain ⟨points, hpoints, hat⟩ : ∃ points, c.matcher.positions
      ((if state.broken then [] else state.vector).map Candidate.payload) c.sample = .ok points ∧
      ∀ e ∈ candidates, e.1.payload ∈ points := by
    have hc : c.matcher.candidates c.name _ c.sample = .ok candidates := hc
    rw [Matcher.candidates] at hc
    split at hc
    · next points hpoints =>
      cases hc
      refine ⟨points, hpoints, fun e he => ?_⟩
      obtain ⟨p, hp, rfl⟩ := List.mem_map.1 he
      exact hp
    · cases hc
  refine ⟨points, hpoints, fun d hd => ?_⟩
  obtain ⟨e, he, hid, hpayload, hcomes⟩ := hfrom d hd
  refine ⟨hpayload ▸ hat e he, ?_⟩
  obtain hroot | ⟨before, table, -, htable, hcomes⟩ := hcomes
  · exact .inl hroot
  obtain hroot | ⟨q, -, t, x, hbetween, hname, htransition⟩ := hcomes (hroots e he)
  · exact .inl hroot
  obtain ⟨p, hp, hpid, _, hmem, heid, roads, hvalid, hknown, halong⟩ :=
    Matcher.exists_along hmap.built htable hbetween
  obtain ⟨e', he', rfl⟩ := List.mem_map.1 hmem
  -- the names of the candidates are distinct, so this is the one of the vector
  obtain rfl : e' = e := List.inj_on_of_nodup_map hnames he' he (heid.trans hid)
  have hheld : state.candidate? p.id = some p := by
    split at hp
    · cases hp
    · exact h.kept.candidate?_of_mem_vector hp
  rw [← hpayload] at hvalid halong
  exact .inr ⟨p, hheld, hpid ▸ hname, before, (t, x), roads, htransition, hvalid, hknown, halong⟩

/-- The transition of a candidate is a route that joins it to its predecessor. -/
abbrev Joined (map : RoadMap K) (exact : Prop) : MatchState K → Prop :=
  Window.Consists (fun _ _ => True) fun p c transition =>
    ∃ r, transition = some r ∧ map.Joins exact p c r

/-- Candidates stay joined when a match state accepts a vector. -/
lemma Taken.joined_accept (h : Taken seen state c vector) (hmap : c.matcher.map.Made)
    {exact : Prop} (hexact : exact → c.matcher.config.shortenTurns = false)
    (hstate : Joined c.matcher.map exact state) :
    Joined c.matcher.map exact (state.accept ⟨vector, c.sample⟩) := by
  obtain ⟨_, -, harises⟩ := h.arises hmap
  refine hstate.accept h.kept h.nodup h.fresh h.length (fun d _ => trivial) fun d hd p hp => ?_
  obtain ⟨hroot, -⟩ | ⟨q, hheld, hname, before, found, roads, htransition, hvalid, hknown,
    halong⟩ := (harises d hd).2
  · rw [hroot] at hp
    cases hp
  · rw [hname, Option.some.injEq] at hp
    subst hp
    exact ⟨q, hheld, found.1, htransition,
      (Matcher.joins_along hmap hvalid hknown halong).imp hexact⟩

end Vectors

/-! ### Runs -/

/-- **Match states are joined by routes**. Whatever calls of distinct names have been made with
matchers of one map, and whatever has been dropped since: each candidate held is a root, or its
predecessor is held too and a route of the map joins the two. The sequence read out starts with a
root, and each candidate after it is a root or joined to the one before. The routes start and end
exactly at the positions of the candidates if no matcher cuts them short, and else on their streets.
-/
theorem run_joined (k t : Option Nat) {map : RoadMap K} (hmap : map.Made) {calls : List (Call K)}
    (hon : ∀ c ∈ calls, c.matcher.map = map) (hnamed : Named calls) :
    let exact := ∀ c ∈ calls, c.matcher.config.shortenTurns = false
    (∀ id c, (run k t calls).candidate? id = some c → c.predecessor = none ∨
        ∃ d, (run k t calls).candidate? d.id = some d ∧ map.Links exact d c) ∧
      (∀ c ∈ (run k t calls).sequence.head?, c.predecessor = none) ∧
      (run k t calls).sequence.IsChain fun d c =>
        c.predecessor = none ∨ map.Links exact d c := by
  intro exact
  obtain ⟨hkept, hconsists⟩ : _ ∧ Joined map exact (run k t calls) :=
    run_induction k t (Window.consists_bounded k t) hnamed
      fun c hc seen state vector htaken hstate => by
        obtain rfl := hon c hc
        exact htaken.joined_accept hmap (fun he => he c hc) hstate
  -- what is found under a name has it
  have hnames : ∀ id d, (run k t calls).candidate? id = some d → d.id = id := by
    intro id d hd
    obtain ⟨i, hat⟩ := hkept.linked.exists_at hd
    exact hkept.names i id d hat hd
  obtain ⟨hhead, hchain⟩ := hconsists.sequence hkept.linked
  refine ⟨fun id c hc => ?_, hhead, hchain.imp fun d c hnext => ?_⟩
  · cases hp : c.predecessor with
    | none => exact .inl rfl
    | some p =>
      obtain ⟨d, hd, hjoined⟩ := hconsists.joined id c p hc hp
      obtain rfl := hnames p d hd
      exact .inr ⟨d, hd, hp, hjoined⟩
  · cases hp : c.predecessor with
    | none => exact .inl rfl
    | some p =>
      obtain ⟨hd, hjoined⟩ := hnext p hp
      obtain rfl := hnames p d hd
      exact .inr ⟨hp, hjoined⟩

namespace Grid

/-- A call whose matcher does not cut routes short. -/
def straight (name : CandidateId) (x time : Int) : Call Int :=
  { call name x time with
    matcher := ⟨map, { (call name x time).matcher.config with shortenTurns := false }⟩ }

end Grid

open Grid in
/-- On the street three samples make a chain, of which a memory of two steps has dropped the first
candidate. A route leads from the second one to the third. -/
theorem run_joined_street :
    let calls := [straight "a" 100 0, straight "b" 300 2000, straight "c" 500 4000]
    Grid.map.Made ∧ (∀ c ∈ calls, c.matcher.map = Grid.map) ∧ Named calls ∧
      ∃ d c r, (run (some 1) none calls).sequence = [d, c] ∧ d.predecessor = none ∧
        c.predecessor = some "b" ∧ c.transition = some r ∧
        r.path.isValid Grid.map.graph = true ∧ r.source = d.payload ∧ r.target = c.payload := by
  intro calls
  have hmap : Grid.map.Made := .construct (RoadMap.made_ofList _)
  have hon : ∀ c ∈ calls, c.matcher.map = Grid.map := by simp [calls, straight]
  have hoff : ∀ c ∈ calls, c.matcher.config.shortenTurns = false := by simp [calls, straight]
  have hnamed : Named calls := ⟨by decide +kernel, by decide +kernel⟩
  have hpredecessors : (run (some 1) none calls).sequence.map Candidate.predecessor =
      [none, some "b"] := by decide +kernel
  obtain ⟨-, -, hchain⟩ := run_joined (some 1) none hmap hon hnamed
  obtain ⟨d, c, hsequence⟩ := List.length_eq_two.1
    (by simpa using congrArg List.length hpredecessors)
  rw [hsequence] at hchain hpredecessors
  obtain ⟨hd, hc⟩ : d.predecessor = none ∧ c.predecessor = some "b" := by
    simpa using hpredecessors
  obtain hnone | ⟨-, r, hr, hjoins⟩ := List.isChain_pair.1 hchain
  · rw [hc] at hnone
    cases hnone
  · obtain ⟨hsource, htarget⟩ := hjoins.ends hoff
    exact ⟨hmap, hon, hnamed, d, c, r, hsequence, hd, hc, hr, hjoins.valid, hsource, htarget⟩

end Call

end RoadMatching
