import RoadMatching.Proofs.Matching.Joints
import RoadMatching.Proofs.Matching.Reducing
import RoadMatching.Proofs.Matching.Writing
import RoadMatching.Proofs.Memory.Resuming
import RoadMatching.Proofs.Number.Laws
import RoadMatching.Proofs.Text.Coordinates

/-!
Match states restored from their snapshots.

Of a position a snapshot has the road and the fraction, and of a route its ends and its roads. That
the map gives back the rest is no property of what is written, but of how it came about: positions are
found on the map, routes are made of roads of the map, and where one is cut short its new end is on
the map too.

* `RoadMap.isWritable_of_within`, `Matcher.of_positions`: the positions for a sample.
* `Turn.isWritable_of_shorten?`, `Matcher.isWritable_along`: the routes of transitions.
* `Call.Writable`: the invariant of match states. `Taken.writable_accept` is the step lemma.
* `Call.run_restored`: **match states survive persistence**, over numbers with the laws that
  `Binary64.finiteLaws` and `Binary64.distanceLaws` show of binary64 numbers.
  `Call.run_restored_street`: a chain of such positions on a street.
-/

namespace RoadMatching

variable {K : Type}

/-! ### Positions -/

variable [Geodesy K] [Analysis K] [NatCast K] [Zero K] [One K] [Add K] [Sub K] [Mul K] [Div K]
  [Neg K] [BEq K] [LT K] [DecidableLT K] [LE K] [DecidableLE K]

/-- What is true of the positions found around a sample and of those of the predecessors, is true of
the positions for the sample. -/
lemma Matcher.of_positions [LineTree K] {m : Matcher K} {good : RoadPoint K → Prop}
    {predecessors points : List (RoadPoint K)} {sample : Sample K}
    (hpredecessors : ∀ p ∈ predecessors, good p)
    (hwithin : ∀ found, m.map.within sample.point m.config.maxRadius = .ok found →
      ∀ p ∈ found, good p)
    (h : m.positions predecessors sample = .ok points) : ∀ p ∈ points, good p := by
  rw [positions] at h
  split at h
  · next found hfound =>
    cases h
    intro p hp
    obtain ⟨q, hq, rfl⟩ := List.mem_map.1 hp
    refine List.foldlRecOn predecessors m.follow (motive := good) ?_ fun p hp previous hmem => ?_
    · exact hwithin found hfound q ((Reduction.reduce_sublist _ _).subset hq)
    · rw [follow]
      split
      · exact hpredecessors _ hmem
      · exact hp
  · cases h

variable [Numeral K] {map : RoadMap K}

/-- The map has the positions found around a sample, at fractions of the unit interval. -/
lemma RoadMap.isWritable_of_within [LineTree K] (hlaws : FiniteLaws K) (hdistance : DistanceLaws K)
    (hmap : map.Made) {p : Point K} {radius : K} {found : List (RoadPoint K)}
    (hfound : map.within p radius = .ok found) : ∀ q ∈ found, q.IsWritable map := by
  rw [within, search] at hfound
  split at hfound
  · cases hfound
    intro q hq
    obtain ⟨hit, hhit, hq⟩ := List.mem_flatMap.1 hq
    obtain ⟨l, hl, rfl⟩ := List.mem_map.1 (List.mem_of_mem_filter hhit)
    have hfraction := l.line.inUnit_intercept hlaws hdistance p
    rw [pointsOf, List.mem_append, Option.mem_toList, Option.mem_toList, Option.map_eq_some_iff,
      Option.map_eq_some_iff] at hq
    obtain ⟨r, hr, rfl⟩ | ⟨r, hr, rfl⟩ := hq
    · exact ⟨hmap.has_on hr _, hfraction⟩
    · exact ⟨hmap.has_on hr _, hlaws.complement _ hfraction⟩
  · cases hfound

/-! ### Routes -/

/-- If a route cut short is a valid path, then the map has its ends, at fractions of the unit
interval. -/
lemma Turn.isWritable_of_shorten? (hlaws : FiniteLaws K) (hmap : map.Made) {turn short : Turn K}
    (hstart : turn.start.IsWritable map) (hstop : turn.stop.IsWritable map)
    (h : turn.shorten? map = some short)
    (hvalid : (⟨short.start.spot, short.stop.spot, short.roads⟩ : Path K).isValid map.graph = true) :
    short.start.IsWritable map ∧ short.stop.IsWritable map := by
  obtain ⟨⟨first, second⟩, hopposite, hshort⟩ := Option.map_eq_some_iff.1 h
  obtain ⟨a, b, rest, hroads, ha, hb, -⟩ := of_opposite? hopposite
  dsimp only at hshort
  split at hshort
  · subst hshort
    exact ⟨⟨hmap.has_on hb _, hlaws.complement _ hstart.fraction⟩, hstop⟩
  · next hlen =>
    have hnil : rest = [] := by
      rw [hroads] at hlen
      exact List.length_eq_zero_iff.1 (by simpa using hlen)
    obtain ⟨-, -, hforward, -⟩ := Path.isValid_iff.1 hvalid
    -- a route on one road does not run backwards, so the fraction is no infinite one
    split at hshort
    · subst hshort
      have hle := hforward (by simp [hroads])
      exact ⟨hstart, hmap.has_on ha _, hlaws.least_one hstart.fraction hle⟩
    · subst hshort
      have hle := hforward (by simp [hroads, hnil])
      exact ⟨⟨hmap.has_on hb _, hlaws.greatest_zero hstop.fraction hle⟩, hstop⟩

variable [IntCast K]

/-- The route of a transition between positions of the map can be written. -/
lemma Matcher.isWritable_along (hlaws : FiniteLaws K) {m : Matcher K} (hmap : m.map.Made)
    {before after : Sample K} {p c : RoadPoint K} {roads : List Int} {found : Route K × K}
    (hp : p.IsWritable m.map) (hc : c.IsWritable m.map)
    (hvalid : (⟨p.spot, c.spot, roads⟩ : Path K).isValid m.map.graph = true)
    (hknown : ∀ id ∈ roads, (m.map.road? id).isSome)
    (h : m.along before p after c roads = some found) : found.1.IsWritable m.map := by
  have hjoins := joins_along hmap hvalid hknown h
  have hmade := of?_of_along h
  obtain ⟨hvalid', hmeasured⟩ := Route.of?_eq_ok_iff.1 hmade
  have hends : (m.turned p c roads).start.IsWritable m.map ∧
      (m.turned p c roads).stop.IsWritable m.map := by
    rcases m.turned_cases p c roads with heq | ⟨-, hshort⟩
    · rw [heq]
      exact ⟨hp, hc⟩
    · exact Turn.isWritable_of_shorten? hlaws hmap hp hc hshort hvalid'
  obtain ⟨route, x⟩ := found
  obtain rfl : _ = route := hmeasured
  exact ⟨hmade, hjoins.known, hends.1, hends.2⟩

/-! ### Match states -/

namespace Call

variable [Ord K] [Score K K] [GeometryText K] [LineTree K] {seen : List CandidateId}
  {state : MatchState K} {c : Call K}
  {vector : List (RoadCandidate K)}

/-- A match state whose parts can be written. -/
structure Writable (map : RoadMap K) (state : MatchState K) : Prop where
  sequenced : state.Sequenced
  candidates : state.Consists
    (fun p t => p.IsWritable map ∧ ∀ r ∈ t, r.IsWritable map) fun _ _ _ => True
  samples : ∀ q ∈ state.samples, q.IsWritable ∧ GeometryText.Keeps q.point

/-- Another sample leaves the parts such that they can be written. -/
lemma Taken.writable_accept (h : Taken seen state c vector) (hlaws : FiniteLaws K)
    (hdistance : DistanceLaws K) (hmap : c.matcher.map.Made) (hsample : c.sample.IsWritable)
    (hkeeps : GeometryText.Keeps c.sample.point) (hstate : Writable c.matcher.map state) :
    Writable c.matcher.map (state.accept ⟨vector, c.sample⟩) := by
  obtain ⟨points, hpoints, harises⟩ := h.arises hmap
  have hheld : ∀ id d, state.candidate? id = some d → d.payload.IsWritable c.matcher.map :=
    fun id d hd => (hstate.candidates.good id d hd).1
  have hpositions : ∀ p ∈ points, p.IsWritable c.matcher.map := by
    refine Matcher.of_positions (fun p hp => ?_)
      (fun found hfound => RoadMap.isWritable_of_within hlaws hdistance hmap hfound) hpoints
    obtain ⟨d, hd, rfl⟩ := List.mem_map.1 hp
    split at hd
    · cases hd
    · exact hheld d.id d (h.kept.candidate?_of_mem_vector hd)
  refine ⟨hstate.sequenced.accept h.kept h.fresh h.length,
    hstate.candidates.accept h.kept h.nodup h.fresh h.length (fun d hd => ?_) fun d hd p hp => ?_,
    fun q hq => ?_⟩
  · obtain ⟨hpoint, ⟨-, hnone⟩ | ⟨p, hp, -, before, found, roads, htransition, hvalid, hknown,
      halong⟩⟩ := harises d hd
    · exact ⟨hpositions _ hpoint, fun r hr => by cases hnone ▸ hr⟩
    · refine ⟨hpositions _ hpoint, fun r hr => ?_⟩
      obtain rfl : found.1 = r := Option.some.inj (htransition.symm.trans hr)
      exact Matcher.isWritable_along hlaws hmap (hheld _ _ hp) (hpositions _ hpoint) hvalid hknown
        halong
  · obtain ⟨-, ⟨hnone, -⟩ | ⟨q, hq, hname, -⟩⟩ := harises d hd
    · cases hnone.symm.trans hp
    · obtain rfl : q.id = p := Option.some.inj (hname.symm.trans hp)
      exact ⟨q, hq, trivial⟩
  · rcases h.kept.mem_samples_accept hq h.nodup h.fresh h.length with hq | rfl
    · exact hstate.samples q hq
    · exact ⟨hsample, hkeeps⟩

omit [Ord K] [Score K K] [LineTree K] in
/-- The parts of a match state that can be written survive it, in whatever order its candidates are
listed. -/
lemma Writable.storable {map : RoadMap K} (hlaws : FiniteLaws K) (hmap : map.Made)
    (h : Writable map state) (hkept : state.Kept seen)
    {listed : List (CandidateId × Held (RoadPoint K) (Route K) K K)}
    (hlisted : listed.Perm state.held.entries) :
    Window.Storable map.codec { state with held := ⟨listed⟩ } where
  candidates e he := by
    obtain ⟨⟨id, e⟩, hentry, rfl⟩ := List.mem_map.1 he
    have hfind := Table.find?_of_mem_entries hkept.linked.keys (hlisted.mem_iff.1 hentry)
    have hc : state.candidate? id = some e.candidate := by
      rw [Window.candidate?, hfind, Option.map_some]
    obtain ⟨hpayload, htransition⟩ := h.candidates.good id e.candidate hc
    exact RoadMap.keeps_codec hlaws hmap hpayload htransition
  samples step hstep := by
    obtain ⟨hwritable, hkeeps⟩ := h.samples _ (List.mem_map_of_mem hstep)
    show (Sample.ofJson step.sample.toJson).mapError _ = _
    rw [Sample.ofJson_toJson hlaws.remainder hwritable hkeeps]
    rfl

/-- **Match states survive persistence**. Take any map and any calls of distinct names on it, whose
samples have finite coordinates that are read as they are written, times of 64 bits, and directions
within the full circle if any. The match state after them is restored from its snapshot, in whatever
order its candidates are listed there. The steps are restored with their samples, and the candidates
with their positions, predecessors, and routes, including their lengths and times. -/
theorem run_restored (hlaws : FiniteLaws K) (hdistance : DistanceLaws K) {map : RoadMap K}
    (hmap : map.Made) (k t : Option Nat) {calls : List (Call K)}
    (hon : ∀ c ∈ calls, c.matcher.map = map) (hnamed : Named calls)
    (hempty : "" ∉ calls.flatMap ids) (hsamples : ∀ c ∈ calls, c.sample.IsWritable)
    (hkeeps : ∀ c ∈ calls, GeometryText.Keeps c.sample.point)
    {listed : List (CandidateId × Held (RoadPoint K) (Route K) K K)}
    (hlisted : listed.Perm (run k t calls).held.entries) :
    ∃ restored,
      Window.ofSnapshot map.codec
          (Window.toSnapshot map.codec { run k t calls with held := ⟨listed⟩ }) = .ok restored ∧
        restored.steps = (run k t calls).steps ∧
        restored.held.keys.Perm (run k t calls).held.keys ∧
        ∀ id c, (run k t calls).candidate? id = some c →
          ∃ d, restored.candidate? id = some d ∧ d.id = c.id ∧ d.payload = c.payload ∧
            d.transition = c.transition ∧ d.predecessor = c.predecessor := by
  obtain ⟨hkept, hwritable⟩ : _ ∧ Writable map (run k t calls) :=
    run_induction k t
      ⟨Window.sequenced_bounded k t, Window.consists_bounded k t, fun q hq => by cases hq⟩ hnamed
      fun c hc seen state vector htaken hstate => by
        obtain rfl := hon c hc
        exact htaken.writable_accept hlaws hdistance hmap (hsamples c hc) (hkeeps c hc) hstate
  have hsequenced : Window.Sequenced { run k t calls with held := ⟨listed⟩ } :=
    ⟨hwritable.sequenced.sizes, hwritable.sequenced.sorted⟩
  have hkey : map.codec.HasOwnKey := show "point" ∉ _ by decide
  refine ⟨_, (hkept.relisted hlisted).ofSnapshot_eq hempty hsequenced
    (hwritable.storable hlaws hmap hkept hlisted) hkey, rfl, ?_, fun id c hc => ?_⟩
  · have hkeys := Window.keys_settle { run k t calls with held := ⟨listed⟩ }
    exact List.Perm.trans (.of_eq hkeys) (hlisted.map Prod.fst)
  · refine ⟨c.settle, (Window.candidate?_settle _ id).trans ?_, rfl, rfl, rfl, rfl⟩
    rw [Window.candidate?_relisted hkept.linked.keys hlisted, hc, Option.map_some]

/-! ### A street of binary64 numbers -/

namespace Avenue

/-- A distance, kept between none at all and the farthest one; an undefined one stays as it is. -/
def held (x : Binary64) : Binary64 :=
  if x < 0 then 0 else if farthest < x then farthest else x

/-- Metres along two axes. -/
scoped instance : Geodesy Binary64 where
  distance a b := held (magnitude (a.x - b.x) + magnitude (a.y - b.y))
  bearing _ _ := (90 : Nat)
  between a b ratio := ⟨a.x + ratio * (b.x - a.x), a.y + ratio * (b.y - a.y)⟩
  closest s p := ⟨greatest s.start.x (least p.x s.stop.x), s.start.y⟩
  envelope p radius := ⟨⟨p.x - radius, p.y - radius⟩, ⟨p.x + radius, p.y + radius⟩⟩
  planar _ _ := 0

/-- All curves are flat. Numbers are rounded by a sum that has no place for what is behind the
point. -/
scoped instance : Analysis Binary64 :=
  { Binary64.instAnalysis with
    exp := fun _ => 1
    nearest := fun x => x + (4503599627370496 : Nat) - (4503599627370496 : Nat) }

scoped instance : LineTree Binary64 := TiledLines.lineTree

/-- All that is possible is as good. -/
scoped instance : Score Binary64 Binary64 := { Binary64.instScore with log10 := fun _ => 0 }

lemma finiteLaws : FiniteLaws Binary64 := { Binary64.finiteLaws with }

lemma distanceLaws : DistanceLaws Binary64 where
  nonneg a b := by
    show ¬ held _ < 0
    rw [held]
    split_ifs with hlow hhigh
    · decide +kernel
    · decide +kernel
    · exact hlow
  bounded a b := by
    show ¬ farthest < held _
    rw [held]
    split_ifs with hlow hhigh
    · decide +kernel
    · decide +kernel
    · exact hhigh

/-- A one-way street to the east. -/
def street (id : Int) (north : Nat) (stop : Binary64) : Street Binary64 where
  id
  refid := id
  source := 2 * id
  target := 2 * id + 1
  oneway := true
  category := 0
  priority := 1
  speedForward := (50 : Nat)
  speedBackward := (50 : Nat)
  length := (1000 : Nat)
  geometry := [⟨0, north⟩, ⟨stop, north⟩]

/-- A street of a kilometre, and one beside it that has no end. -/
def streets : RoadMap Binary64 :=
  (RoadMap.ofList [street 1 0 (1000 : Nat), street 2 5 (Extended.infinite false)]).construct

/-- A call for a sample on the way east, at least fifty metres from the last one. No route is too
long. -/
def call (name : CandidateId) (x : Nat) (time : Int) : Call Binary64 where
  matcher := ⟨streets, { Config.standard with maxDistance := Extended.infinite false }⟩
  name road := name ++ toString road
  spacing := ⟨(50 : Nat), 0⟩
  sample := ⟨name, time, ⟨x, 0⟩, some (90 : Nat)⟩

lemma isFinite_zero : isFinite (0 : Binary64) = true := by decide +kernel

lemma isExact_zero : Numeral.IsExact (0 : Binary64) := ⟨false, 0, 0, by decide +kernel, rfl⟩

/-- The samples of the calls can be written. -/
lemma isWritable_call {name : CandidateId} {x : Nat} {time : Int}
    (htime : -9223372036854775808 ≤ time ∧ time < 9223372036854775808)
    (hx : isFinite (x : Binary64) = true) : (call name x time).sample.IsWritable where
  time := htime
  x := hx
  y := isFinite_zero
  azimuth a ha := by
    cases ha
    exact ⟨by decide +kernel, by decide +kernel, by decide +kernel⟩

/-- Their points are read as they are written. -/
lemma keeps_call {name : CandidateId} {x : Nat} {time : Int}
    (hx : Numeral.IsExact (x : Binary64)) : GeometryText.Keeps (call name x time).sample.point :=
  fun _ _ => WellKnownText.point?_point hx isExact_zero

end Avenue

open Avenue in
/-- On the street three samples make a chain, of which a memory of two steps has dropped the first
candidate. What is restored of it has the third one with its position, its predecessor and its
route. -/
theorem run_restored_street :
    let calls := [call "a" 100 0, call "b" 300 2000, call "c" 500 4000]
    let state := run (some 1) none calls
    FiniteLaws Binary64 ∧ DistanceLaws Binary64 ∧ streets.Made ∧
      (∀ c ∈ calls, c.matcher.map = streets) ∧ Named calls ∧ "" ∉ calls.flatMap ids ∧
      (∀ c ∈ calls, c.sample.IsWritable) ∧ (∀ c ∈ calls, GeometryText.Keeps c.sample.point) ∧
      ∃ restored c d,
        Window.ofSnapshot streets.codec (Window.toSnapshot streets.codec state) = .ok restored ∧
          restored.steps = state.steps ∧ state.candidate? "c2" = some c ∧
          restored.candidate? "c2" = some d ∧ d.payload = c.payload ∧ c.transition.isSome ∧
          d.transition = c.transition ∧ d.predecessor = some "b2" := by
  intro calls state
  have hmap : streets.Made := .construct (RoadMap.made_ofList _)
  have hon : ∀ c ∈ calls, c.matcher.map = streets := by simp [calls, call]
  have hnamed : Named calls := ⟨by decide +kernel, by decide +kernel⟩
  have hempty : "" ∉ calls.flatMap ids := by decide +kernel
  have hsamples : ∀ c ∈ calls, c.sample.IsWritable := by
    simp only [calls, List.forall_mem_cons]
    exact ⟨isWritable_call (by decide) (by decide +kernel),
      isWritable_call (by decide) (by decide +kernel),
      isWritable_call (by decide) (by decide +kernel), List.forall_mem_nil _⟩
  have hkeeps : ∀ c ∈ calls, GeometryText.Keeps c.sample.point := by
    simp only [calls, List.forall_mem_cons]
    exact ⟨keeps_call ⟨false, 100, 0, by decide +kernel, rfl⟩,
      keeps_call ⟨false, 300, 0, by decide +kernel, rfl⟩,
      keeps_call ⟨false, 500, 0, by decide +kernel, rfl⟩, List.forall_mem_nil _⟩
  obtain ⟨restored, hrestored, hsteps, -, hcandidates⟩ :=
    run_restored finiteLaws distanceLaws hmap (some 1) none hon hnamed hempty hsamples hkeeps
      (List.Perm.refl state.held.entries)
  -- all entries as they are make the same state
  have hsame : ∀ s : MatchState Binary64,
      ({ s with held := ⟨s.held.entries⟩ } : MatchState Binary64) = s := fun _ => rfl
  rw [hsame] at hrestored
  have hheld : (state.candidate? "c2").map (fun c => (c.transition.isSome, c.predecessor)) =
      some (true, some "b2") := by decide +kernel
  obtain ⟨c, hc, hlinks⟩ := Option.map_eq_some_iff.1 hheld
  obtain ⟨htransition, hpredecessor⟩ := Prod.mk.inj hlinks
  obtain ⟨d, hd, -, hpayload, hroute, hpointer⟩ := hcandidates "c2" c hc
  exact ⟨finiteLaws, distanceLaws, hmap, hon, hnamed, hempty, hsamples, hkeeps, restored, c, d,
    hrestored, hsteps, hc, hd, hpayload, htransition, hroute, hpointer.trans hpredecessor⟩

end Call

end RoadMatching
