import RoadMatching.Geo.TiledLines
import RoadMatching.Matching.State
import RoadMatching.Proofs.Filtering.Origins
import RoadMatching.Proofs.Memory.Atomicity

/-!
Matching a feed of samples, call by call.

Whether a sample is skipped, which candidates the filter goes on from, which of them an update lets
a vector name, and when a chain is broken are decided in different places. They agree in every match
state that is reached from one without steps.

* `Call`: a call with all that it is given. `Call.perform`: the call as a program that changes a match
  state in place; `Call.perform_eq`: it is `Matcher.matchSample`, and one that fails leaves the match
  state as it found it. `Call.answer`, `Call.after`: what it returns, and the match state that it
  leaves. `Call.run`: the match state after some calls.
* `Call.IsSpaced`: the sample is not too close to the last one; `Call.isSpaced_iff`.
* `Call.ids`: the names that a call gives to candidates; they do not depend on the match state.
  `Call.Admissible`: calls whose names never repeat and whose times differ by a number of 64 bits.
* `Call.Outcome`: the ways in which a call ends; it never fails in the memory.
* `Call.Fed`: the invariant of match states. `Fed.call` is the step lemma, `fed_run` the run lemma.
* `Call.outcome_run`: **each call of a feed ends in one of these ways**. `Call.outcome_run_street`:
  a walk with all of them.
-/

namespace RoadMatching

variable {K : Type}

/-- A call that matches a sample: the matcher, a name for the candidate on each road, how close the
sample may be to the last one, and after how many milliseconds the search from each predecessor ends.
-/
structure Call (K : Type) where
  matcher : Matcher K
  name : Int → CandidateId
  spacing : Matcher.Spacing K
  sample : Sample K
  duration : RoadCandidate K → Nat := fun _ => 1

namespace Call

/-! ### Spacing -/

section Spacing

variable [Geodesy K] [Zero K] [BEq K] [LT K] [DecidableLT K]

/-- The sample of a call is not too close to the last one: its distance is not less than the one
that the call asks for, and its time is later by the interval at least. Neither counts if it is
negative. -/
def IsSpaced (c : Call K) (last : Sample K) : Prop :=
  ¬ Geodesy.distance c.sample.point last.point < greatest c.spacing.distance 0 ∧
    max c.spacing.interval 0 ≤ c.sample.time - last.time

/-- A sample that is not skipped is spaced from the last one. -/
lemma isSpaced_of_not_excludes {c : Call K} {last : Sample K}
    (h : c.spacing.excludes last c.sample = false)
    (hlow : -9223372036854775808 ≤ c.sample.time - last.time)
    (hhigh : c.sample.time - last.time < 9223372036854775808) : c.IsSpaced last := by
  rw [Matcher.Spacing.excludes, Bool.or_eq_false_iff, decide_eq_false_iff_not,
    decide_eq_false_iff_not, elapsed, signed64_of_mem hlow hhigh] at h
  exact ⟨h.1, not_lt.1 h.2⟩

lemma IsSpaced.time_le {c : Call K} {last : Sample K} (h : c.IsSpaced last) :
    last.time ≤ c.sample.time := by
  have hinterval := h.2
  omega

end Spacing

/-- Where all numbers can be compared, the distance is at least the one asked for. -/
lemma isSpaced_iff [Geodesy K] [Zero K] [BEq K] [LawfulBEq K] [LinearOrder K] {c : Call K}
    {last : Sample K} :
    c.IsSpaced last ↔
      max c.spacing.distance 0 ≤ Geodesy.distance c.sample.point last.point ∧
        max c.spacing.interval 0 ≤ c.sample.time - last.time := by
  have hgreatest : greatest c.spacing.distance 0 = max c.spacing.distance 0 := by
    rcases lt_or_ge 0 c.spacing.distance with h | h
    · rw [greatest_of_lt h, max_eq_left h.le]
    · rw [greatest_of_not_lt (not_lt.2 h), max_eq_right h]
  rw [IsSpaced, hgreatest, not_lt]

/-! ### Names -/

section Names

variable [Geodesy K] [LT K] [DecidableLT K]

/-- A position stays on its road. -/
lemma road_follow (m : Matcher K) (p previous : RoadPoint K) :
    (m.follow p previous).road = p.road := by
  rw [Matcher.follow]
  split
  · next h => exact h.1.symm
  · rfl

lemma road_foldl_follow (m : Matcher K) (predecessors : List (RoadPoint K)) (p : RoadPoint K) :
    (predecessors.foldl m.follow p).road = p.road :=
  List.foldlRecOn predecessors m.follow (motive := fun q => q.road = p.road) rfl
    fun q hq previous _ => (road_follow m q previous).trans hq

variable [Zero K] [BEq K] [Analysis K] [NatCast K] [One K] [Add K] [Sub K] [Mul K] [Div K] [Neg K]
variable [LE K] [DecidableLE K] [LineTree K]

/-- The names of the candidates for the sample. -/
def ids (c : Call K) : List CandidateId :=
  match c.matcher.positions [] c.sample with
  | .ok points => points.map fun p => c.name p.road
  | .error _ => []

/-- The candidates for the sample are new and have these names, whatever their predecessors. -/
lemma candidates_ok (c : Call K) {predecessors : List (RoadCandidate K)}
    {candidates : List (RoadCandidate K × K)}
    (h : c.matcher.candidates c.name predecessors c.sample = .ok candidates) :
    (candidates.map fun d => d.1.id) = c.ids ∧ ∀ d ∈ candidates, d.1.IsRoot := by
  rw [Matcher.candidates, Matcher.positions] at h
  rw [ids, Matcher.positions]
  cases hfound : c.matcher.map.within c.sample.point c.matcher.config.maxRadius with
  | error e =>
    rw [hfound] at h
    cases h
  | ok found =>
    rw [hfound] at h
    cases h
    refine ⟨?_, fun d hd => ?_⟩
    · simp [Candidate.new, road_foldl_follow]
    · obtain ⟨p, -, rfl⟩ := List.mem_map.1 hd
      exact ⟨rfl, rfl⟩

/-- Calls whose names never repeat, neither in one call nor in several. The number of candidates of
a call is one of 64 bits, and so is the difference of any two times. -/
structure Admissible (calls : List (Call K)) : Prop where
  nodup : (calls.flatMap ids).Nodup
  length : ∀ c ∈ calls, c.ids.length < 18446744073709551616
  times : ∀ a ∈ calls, ∀ b ∈ calls, -9223372036854775808 ≤ b.sample.time - a.sample.time ∧
    b.sample.time - a.sample.time < 9223372036854775808

variable {calls : List (Call K)} {c : Call K}

/-- The calls before the last one are admissible too. -/
lemma Admissible.init (h : Admissible (calls ++ [c])) : Admissible calls where
  nodup := (nodup_flatMap_concat h.nodup).1
  length d hd := h.length d (List.mem_append_left _ hd)
  times a ha b hb := h.times a (List.mem_append_left _ ha) b (List.mem_append_left _ hb)

/-- The names of the last call are distinct, and new. -/
lemma Admissible.last (h : Admissible (calls ++ [c])) :
    c.ids.Nodup ∧ ∀ id ∈ c.ids, id ∉ calls.flatMap ids :=
  (nodup_flatMap_concat h.nodup).2

/-- The map is not constructed if there are no candidates to be had. -/
lemma candidates_error {m : Matcher K} {name : Int → CandidateId}
    {predecessors : List (RoadCandidate K)} {sample : Sample K} {error : MatchError}
    (h : m.candidates name predecessors sample = .error error) : ∃ e, error = .map e := by
  rw [Matcher.candidates] at h
  split at h
  · cases h
  · next e he =>
    cases h
    rw [Matcher.positions] at he
    split at he
    · cases he
    · next e _ => exact ⟨e, (Except.error.inj he).symm⟩

/-- A match state between calls: its candidates have names of the calls, and its samples are theirs.
-/
structure Fed (calls : List (Call K)) (state : MatchState K) : Prop where
  kept : state.Kept (calls.flatMap ids)
  samples : ∀ q ∈ state.samples, ∃ c ∈ calls, c.sample = q

/-- Another call changes nothing of a match state that it leaves as it was. -/
lemma Fed.grow {state : MatchState K} (h : Fed calls state) (c : Call K) :
    Fed (calls ++ [c]) state where
  kept := h.kept.mono rfl rfl (by simp)
  samples q hq := by
    obtain ⟨d, hd, heq⟩ := h.samples q hq
    exact ⟨d, List.mem_append_left _ hd, heq⟩

/-- A vector in time whose candidates come from the last one is not refused. -/
lemma Fed.fault?_eq_none {state : MatchState K} (h : Fed calls state)
    {vector : List (RoadCandidate K)} {sample : Sample K}
    (htime : ∀ last, state.sample? = some last → last.time ≤ sample.time)
    (hfrom : ∀ d ∈ vector, d.ComesFrom (if state.broken then [] else state.vector)) :
    state.fault? vector sample = none := by
  refine Window.fault?_eq_none_iff.2 ⟨fun last hlast => ?_, fun d hd id hid => ?_⟩
  · obtain ⟨q, hq, rfl⟩ := Option.map_eq_some_iff.1 hlast
    exact not_lt.2 (htime q hq)
  · rcases hfrom d hd with ⟨hroot, -⟩ | ⟨p, hp, hname⟩
    · rw [hroot] at hid
      cases hid
    · cases hbroken : state.broken with
      | true => simp [hbroken] at hp
      | false =>
        rw [hname, Option.some.injEq] at hid
        subst hid
        rw [hbroken, if_neg Bool.false_ne_true] at hp
        obtain ⟨hmem, hheld⟩ := h.kept.mem_of_mem_vector hp
        exact ⟨by rwa [Window.latest, hbroken, if_neg Bool.false_ne_true], hheld⟩

end Names

/-! ### Calls and their outcomes -/

variable [Geodesy K] [Zero K] [BEq K] [LT K] [DecidableLT K] [Analysis K] [NatCast K] [IntCast K]
variable [One K] [Add K] [Sub K] [Mul K] [Div K] [Neg K] [LE K] [DecidableLE K] [Ord K] [Score K K]
variable [LineTree K]

/-- The call as a program that changes a match state in place, and may fail on the way. It returns
whether the sample was not skipped. -/
def perform (c : Call K) : EStateM MatchError (MatchState K) Bool := do
  let state ← get
  if state.sample?.any fun last => c.spacing.excludes last c.sample then return false
  let vector ← ofExcept (c.matcher.vectorFor c.name state c.sample c.duration)
  EStateM.adaptExcept .memory (Window.submit vector c.sample)
  return true

/-- The call in place gives the match state that `Matcher.matchSample` gives. If the call fails, it
leaves the match state as it was. -/
theorem perform_eq (c : Call K) (state : MatchState K) :
    c.perform state =
      match c.matcher.matchSample c.name c.spacing state c.sample c.duration with
      | .ok (next, taken) => .ok taken next
      | .error error => .error error state := by
  have hget : (get : EStateM MatchError (MatchState K) (MatchState K)) state = .ok state state := rfl
  rw [perform, Matcher.matchSample]
  by_cases hskip : state.sample?.any fun last => c.spacing.excludes last c.sample
  · simp only [bind, EStateM.bind, hget, if_pos hskip]
    rfl
  · simp only [bind, EStateM.bind, hget, if_neg hskip]
    cases hvector : c.matcher.vectorFor c.name state c.sample c.duration with
    | error error => rfl
    | ok vector =>
      show EStateM.bind (EStateM.adaptExcept MatchError.memory (Window.submit vector c.sample))
        (fun _ => pure true) state = _
      rw [EStateM.bind, EStateM.adaptExcept, Window.submit_eq]
      dsimp only
      cases state.update vector c.sample <;> rfl

/-- What a call on a match state returns. -/
def answer (c : Call K) (state : MatchState K) : Except MatchError Bool :=
  match c.perform state with
  | .ok taken _ => .ok taken
  | .error error _ => .error error

/-- The match state that a call leaves. -/
def after (c : Call K) (state : MatchState K) : MatchState K :=
  match c.perform state with
  | .ok _ next => next
  | .error _ next => next

/-- A call returns what `Matcher.matchSample` says of the sample. -/
lemma answer_eq (c : Call K) (state : MatchState K) :
    c.answer state =
      (c.matcher.matchSample c.name c.spacing state c.sample c.duration).map Prod.snd := by
  rw [answer, perform_eq]
  cases c.matcher.matchSample c.name c.spacing state c.sample c.duration <;> rfl

/-- A call leaves the match state that `Matcher.matchSample` gives, or the one it found. -/
lemma after_eq (c : Call K) (state : MatchState K) :
    c.after state =
      match c.matcher.matchSample c.name c.spacing state c.sample c.duration with
      | .ok (next, _) => next
      | .error _ => state := by
  rw [after, perform_eq]
  cases c.matcher.matchSample c.name c.spacing state c.sample c.duration <;> rfl

/-- The match state after some calls, first to last, on one without steps. -/
def run (k t : Option Nat) (calls : List (Call K)) : MatchState K :=
  calls.foldl (fun state c => c.after state) (.bounded k t)

lemma run_concat (k t : Option Nat) (calls : List (Call K)) (c : Call K) :
    run k t (calls ++ [c]) = c.after (run k t calls) := by
  simp [run]

/-- The ways in which a call on a match state ends: with what it returns, and with the match state
that it leaves. -/
inductive Outcome (c : Call K) (state : MatchState K) :
    Except MatchError Bool → MatchState K → Prop
  /-- It fails, but not in the memory, and the match state stays as it was. -/
  | failed {error : MatchError} (h : ∀ fault, error ≠ .memory fault) :
      Outcome c state (.error error) state
  /-- The sample is skipped, and the match state stays as it was. -/
  | skipped : Outcome c state (.ok false) state
  /-- No candidate is found: this counts as a break, and no sample is added. -/
  | broken :
      Outcome c state (.ok true) { state with breaks := state.breaks + 1, broken := true }
  /-- The sample is added after the latest ones there were. It is spaced from the last one, and
  after a break its candidates are roots. -/
  | matched {next : MatchState K} {kept : List (Sample K)} (hkept : kept <:+ state.samples)
      (hsamples : next.samples = kept ++ [c.sample])
      (hspaced : ∀ last, state.sample? = some last → c.IsSpaced last)
      (hroots : state.broken = true → ∀ d ∈ next.vector, d.IsRoot)
      (hbroken : next.broken = false) : Outcome c state (.ok true) next

/-! ### One call -/

section Steps

variable {c : Call K} {calls : List (Call K)} {state : MatchState K}

/-- The vector for a sample is that of a filter step from the last vector, or from nothing after a
break. -/
lemma execute_of_vectorFor {vector : List (RoadCandidate K)}
    (h : c.matcher.vectorFor c.name state c.sample c.duration = .ok vector) :
    (c.matcher.filter c.name c.duration).execute (if state.broken then [] else state.vector)
      (if state.broken then none else state.sample?) c.sample = .ok vector := by
  rw [Matcher.vectorFor] at h
  split at h <;> simp_all

/-- The vector for a sample has some of the names of the call, and its candidates come from the last
vector, or are roots after a break. -/
lemma vectorFor_ok {vector : List (RoadCandidate K)}
    (h : c.matcher.vectorFor c.name state c.sample c.duration = .ok vector) :
    (vector.map Candidate.id).Sublist c.ids ∧
      ∀ d ∈ vector, d.ComesFrom (if state.broken then [] else state.vector) := by
  obtain ⟨candidates, hc, hids, hfrom⟩ := Filter.execute_ok (execute_of_vectorFor h)
  obtain ⟨hnames, hroots⟩ := c.candidates_ok hc
  exact ⟨hnames ▸ hids, hfrom hroots⟩

omit [Score K K] [LineTree K] in
/-- The routes are not found in time if there are no transitions to be had. -/
lemma transitions_error {m : Matcher K} {before after : Sample K}
    {predecessors candidates : List (RoadCandidate K)} {error : MatchError}
    {elapsed : RoadCandidate K → Nat}
    (h : m.transitions before predecessors after candidates elapsed = .error error) :
    ∃ e, error = .batch e := by
  rw [Matcher.transitions] at h
  split at h
  · cases h
  · next e _ => exact ⟨e, (Except.error.inj h).symm⟩

/-- No vector is found if the map is not constructed, or if the routes are not found in time. -/
lemma vectorFor_error {error : MatchError}
    (h : c.matcher.vectorFor c.name state c.sample c.duration = .error error) (fault : MemoryError) :
    error ≠ .memory fault := by
  have hstep : ∃ predecessors previous,
      (c.matcher.filter c.name c.duration).execute predecessors previous c.sample = .error error := by
    rw [Matcher.vectorFor] at h
    split at h
    · exact ⟨_, _, h⟩
    · exact ⟨_, _, h⟩
  obtain ⟨predecessors, previous, hstep⟩ := hstep
  rcases Filter.execute_error hstep with hc | ⟨before, after, ht⟩
  · obtain ⟨e, rfl⟩ := candidates_error hc
    simp
  · obtain ⟨e, rfl⟩ := transitions_error ht
    simp

omit [IntCast K] [Ord K] [Score K K] in
/-- A sample that is not skipped is spaced from the last one. -/
lemma Fed.isSpaced (h : Fed calls state) (hadmissible : Admissible (calls ++ [c]))
    (hskip : ¬ state.sample?.any fun last => c.spacing.excludes last c.sample) {last : Sample K}
    (hlast : state.sample? = some last) : c.IsSpaced last := by
  rw [hlast, Option.any_some, Bool.not_eq_true] at hskip
  obtain ⟨d, hd, rfl⟩ := h.samples last
    (List.mem_of_getLast? (state.sample?_eq.symm.trans hlast))
  obtain ⟨hlow, hhigh⟩ := hadmissible.times d (List.mem_append_left _ hd) c (by simp)
  exact isSpaced_of_not_excludes hskip hlow hhigh

/-- A vector that the memory takes adds the sample. -/
lemma Fed.matched (h : Fed calls state) (hadmissible : Admissible (calls ++ [c]))
    {vector : List (RoadCandidate K)}
    (hvector : c.matcher.vectorFor c.name state c.sample c.duration = .ok vector)
    (hfault : state.fault? vector c.sample = none)
    (hspaced : ∀ last, state.sample? = some last → c.IsSpaced last) {best : RoadCandidate K}
    (hbest : best ∈ vector) :
    let next := ((state.countReferences vector).pruneLast.append vector c.sample best.id).evict
    c.Outcome state (.ok true) next ∧ Fed (calls ++ [c]) next := by
  obtain ⟨hids, hfrom⟩ := vectorFor_ok hvector
  obtain ⟨hnodup, hfresh⟩ := hadmissible.last
  have hnodup' := hids.nodup hnodup
  have hfresh' : ∀ id ∈ vector.map Candidate.id, id ∉ calls.flatMap ids :=
    fun id hid => hfresh id (hids.subset hid)
  have hlen : vector.length < 18446744073709551616 := by
    have hle := hids.length_le
    have hlt := hadmissible.length c (by simp)
    rw [List.length_map] at hle
    omega
  obtain ⟨hbroken, ⟨kept, hkept, hsamples⟩, hlatest⟩ :=
    h.kept.appended hfault hnodup' hfresh' hlen best.id
  refine ⟨.matched hkept hsamples hspaced (fun hbreak d hd => ?_) hbroken, ?_, fun q hq => ?_⟩
  · obtain ⟨e, he, heq⟩ := hlatest d hd
    rw [hbreak, if_pos rfl] at hfrom
    have hroot := (hfrom e he).isRoot
    rcases heq with rfl | rfl
    · exact hroot
    · exact ⟨rfl, hroot.2⟩
  · refine (h.kept.update hfault hbest hnodup' hfresh' hlen).mono rfl rfl ?_
    rw [List.flatMap_append, List.flatMap_singleton]
    exact List.append_subset.2 ⟨List.subset_append_left _ _,
      fun id hid => List.mem_append_right _ (hids.subset hid)⟩
  · rw [hsamples, List.mem_append, List.mem_singleton] at hq
    rcases hq with hq | rfl
    · exact (h.grow c).samples q (hkept.subset hq)
    · exact ⟨c, by simp, rfl⟩

/-- **One call**. It ends in one of the ways that a call may end, and what it leaves is a match
state between calls again. -/
theorem Fed.call (h : Fed calls state) (hadmissible : Admissible (calls ++ [c])) :
    c.Outcome state (c.answer state) (c.after state) ∧ Fed (calls ++ [c]) (c.after state) := by
  have hgrown : Fed (calls ++ [c]) state := h.grow c
  rw [answer_eq, after_eq, Matcher.matchSample]
  split
  · exact ⟨.skipped, hgrown⟩
  · next hskip =>
    have hspaced : ∀ last, state.sample? = some last → c.IsSpaced last :=
      fun last hlast => h.isSpaced hadmissible hskip hlast
    cases hvector : c.matcher.vectorFor c.name state c.sample c.duration with
    | error e => exact ⟨.failed (vectorFor_error hvector), hgrown⟩
    | ok vector =>
      have hfault := h.fault?_eq_none (fun last hlast => (hspaced last hlast).time_le)
        (vectorFor_ok hvector).2
      rcases state.update_cases vector c.sample with
        ⟨-, heq⟩ | ⟨error, -, herror, -⟩ | ⟨best, hbest, -, heq⟩
      · simp only [heq]
        exact ⟨.broken, hgrown.kept.mono rfl rfl (List.Subset.refl _), hgrown.samples⟩
      · rw [hfault] at herror
        cases herror
      · simp only [heq]
        exact h.matched hadmissible hvector hfault hspaced (Candidate.mem_of_best? hbest)

end Steps

/-! ### Feeds -/

/-- The match state after admissible calls is one between calls. -/
theorem fed_run (k t : Option Nat) {calls : List (Call K)} (h : Admissible calls) :
    Fed calls (run k t calls) := by
  induction calls using List.reverseRecOn with
  | nil => exact ⟨Window.kept_bounded k t, fun q hq => by cases hq⟩
  | append_singleton calls c ih =>
    rw [run_concat]
    exact ((ih h.init).call h).2

/-- **A feed is safe**. Whatever calls came before on a match state without steps, a call does not
fail in the memory; if it fails or skips its sample, then it leaves the match state as it was; a
sample that it adds is spaced from the last one, and has roots for candidates after a break. -/
theorem outcome_run (k t : Option Nat) {calls : List (Call K)} {c : Call K}
    (h : Admissible (calls ++ [c])) :
    c.Outcome (run k t calls) (c.answer (run k t calls)) (run k t (calls ++ [c])) := by
  rw [run_concat]
  exact ((fed_run k t h.init).call h).1

/-! ### A street -/

namespace Grid

/-- Whole metres in a plane. -/
scoped instance : Geodesy Int where
  distance a b := (a.x - b.x).natAbs + (a.y - b.y).natAbs
  bearing _ _ := 90
  between a b ratio := ⟨a.x + ratio * (b.x - a.x), a.y + ratio * (b.y - a.y)⟩
  closest s p := ⟨max s.start.x (min p.x s.stop.x), s.start.y⟩
  envelope p radius := ⟨⟨p.x - radius, p.y - radius⟩, ⟨p.x + radius, p.y + radius⟩⟩
  planar _ _ := 0

/-- All curves are flat. -/
scoped instance : Analysis Int where
  pi := 3
  sqrt _ := 1
  exp _ := 1
  nearest x := x
  remainder x y := x.tmod y

/-- All that is possible is as good. -/
scoped instance : Score Int Int where
  log10 _ := 0
  impossible := -1

scoped instance : LineTree Int := TiledLines.lineTree

/-- A one-way street of a kilometre to the east. -/
def map : RoadMap Int :=
  (RoadMap.ofList [{
    id := 1
    refid := 1
    source := 0
    target := 1
    oneway := true
    category := 0
    priority := 1
    speedForward := 50
    speedBackward := 50
    length := 1000
    geometry := [⟨(0 : Int), 0⟩, ⟨1000, 0⟩] }]).construct

/-- A call for a sample on the way east, at least fifty metres from the last one. -/
def call (name : CandidateId) (x time : Int) : Call Int where
  matcher := ⟨map, { Config.standard with lambda := 1, maxRadius := 1000 }⟩
  name _ := name
  spacing := ⟨50, 0⟩
  sample := ⟨name, time, ⟨x, 0⟩, none⟩

/-- Calls of which `b` is too close to the one before, `d` is off the street, `e` is late, the search
for `s` takes too long, and `f` has no map to search. -/
def walk : List (Call Int) :=
  [call "a" 100 0, call "b" 120 1000, call "c" 300 2000,
    { call "s" 400 2500 with
      matcher := ⟨map, { Config.standard with maxRadius := 1000, timeout := some 4 }⟩
      duration := fun _ => 5 },
    call "d" 5000 3000, call "e" 400 1500,
    { call "f" 450 3500 with matcher := ⟨map.deconstruct, .standard⟩ }]

end Grid

open Grid in
/-- After a walk with two samples held and a break, the next sample starts a new chain. -/
theorem outcome_run_street :
    (run none none walk).vector.map Candidate.predecessor = [some "a"] ∧
      (run none none walk).broken = true ∧
      (call "g" 500 4000).Outcome (run none none walk)
        ((call "g" 500 4000).answer (run none none walk))
        (run none none (walk ++ [call "g" 500 4000])) ∧
      (run none none (walk ++ [call "g" 500 4000])).vector.map Candidate.predecessor = [none] := by
  have hadmissible : Admissible (walk ++ [call "g" 500 4000]) :=
    ⟨by decide +kernel, by decide +kernel, by decide +kernel⟩
  exact ⟨by decide +kernel, by decide +kernel, outcome_run none none hadmissible,
    by decide +kernel⟩

end Call

end RoadMatching
