import RoadMatching.Graph.Path

/-!
Least-cost routes from several positions to several others.

The search sets labels on edges, cheapest first. A label says at what cost an edge is travelled to
its end, or up to a goal on it; the edge itself is entered once, by the first label that reaches it,
and each goal is finished by the cheapest of its labels.

* `Label`: an edge, the edge before it, and the cost. A label of a goal names it.
* `enqueue`: labels wait in the order of their costs, and of equal ones the earlier comes first.
* `step`: takes the cheapest label, finishes its goal or passes on to the successors of its edge. It
  ends when no label or no goal is left, or when a label has spent more than the limit.
* `chain`: the labels that led to a label, read off the entries. An edge was entered before the
  edges entered from it, so the entries are searched from the newest to the oldest.
* `routes`: for each target the route to it, with the source where it starts. The search takes
  `budget` steps at most.
-/

namespace RoadMatching

namespace Search

variable {α K : Type}

/-- An edge travelled from its predecessor, in full or up to a goal. -/
structure Label (K : Type) where
  /-- The index of the edge. -/
  edge : Nat
  /-- The index of the edge before it; a start has none. -/
  previous : Option Nat
  cost : K
  /-- What has been spent of the limit. -/
  spent : K
  /-- The goal reached, if the edge is not travelled in full. -/
  goal : Option Nat
  /-- The source, if this is a start. -/
  origin : Option (Spot K)
  deriving Repr

/-- A target, by its place among the targets and the index of its edge. -/
structure Goal (K : Type) where
  place : Nat
  edge : Nat
  fraction : K
  deriving Repr

/-- A search under way. -/
structure State (K : Type) where
  /-- The labels that wait, cheapest first. -/
  queue : List (Label K)
  /-- The labels by which edges were entered, newest first. -/
  entries : List (Label K)
  /-- The goals not finished. -/
  pending : List (Goal K)
  /-- The labels that finished their goals. -/
  finishes : List (Label K)

/-! ### The queue -/

/-- Puts a label behind those that do not cost more. -/
def enqueue [Ord K] (l : Label K) : List (Label K) → List (Label K)
  | [] => [l]
  | first :: rest =>
    if (compare l.cost first.cost).isLT then l :: first :: rest else first :: enqueue l rest

theorem mem_enqueue [Ord K] {l m : Label K} {queue : List (Label K)} :
    m ∈ enqueue l queue ↔ m = l ∨ m ∈ queue := by
  induction queue with
  | nil => simp [enqueue]
  | cons first rest ih =>
    unfold enqueue
    split
    · simp
    · simp [ih, or_left_comm]

theorem length_enqueue [Ord K] (l : Label K) (queue : List (Label K)) :
    (enqueue l queue).length = queue.length + 1 := by
  induction queue with
  | nil => rfl
  | cons first rest ih =>
    unfold enqueue
    split <;> simp [ih]

namespace State

/-- The label by which an edge was entered. -/
def entry? (s : State K) (edge : Nat) : Option (Label K) :=
  s.entries.find? fun l => l.edge == edge

/-- Lets a label wait. -/
def push [Ord K] (s : State K) (l : Label K) : State K :=
  { s with queue := enqueue l s.queue }

/-- Enters the edge of a label by it. -/
def enter [Ord K] (s : State K) (l : Label K) : State K :=
  { s.push l with entries := l :: s.entries }

/-- The goals on an edge that are not finished. -/
def goalsOn (s : State K) (edge : Nat) : List (Goal K) :=
  s.pending.filter fun goal => goal.edge == edge

/-- Whether a goal has been finished. -/
def isFinished (s : State K) (place : Nat) : Bool :=
  s.finishes.any fun l => l.goal == some place

end State

/-! ### Starting -/

section Run

variable [Zero K] [One K] [Add K] [Sub K] [LT K] [DecidableLT K] [Ord K]

/-- What travelling an edge in full spends of the limit. -/
def spentFull (limit : Option (Limit α K)) (label : α) : K :=
  match limit with
  | some l => l.cost.full label
  | none => 0

/-- What travelling a fraction of an edge spends of the limit. -/
def spentPart (limit : Option (Limit α K)) (label : α) (fraction : K) : K :=
  match limit with
  | some l => l.cost.part label fraction
  | none => 0

/-- The label up to a goal: that of the whole edge, less what remains behind the goal. -/
def upTo (cost : Cost α K) (limit : Option (Limit α K)) (edge : Edge α) (whole : Label K)
    (goal : Goal K) : Label K :=
  { whole with
    cost := whole.cost - cost.part edge.label (1 - goal.fraction)
    spent := whole.spent - spentPart limit edge.label (1 - goal.fraction)
    goal := some goal.place }

/-- The label that starts at a source and travels the rest of its edge. -/
def startLabel (cost : Cost α K) (limit : Option (Limit α K)) (index : Nat) (edge : Edge α)
    (source : Spot K) : Label K where
  edge := index
  previous := none
  cost := cost.part edge.label (1 - source.fraction)
  spent := spentPart limit edge.label (1 - source.fraction)
  goal := none
  origin := some source

/-- Starts at a source: reaches the goals ahead of it on its edge, and enters the edge unless an
earlier source does so at no higher cost. -/
def start (g : Graph α) (cost : Cost α K) (limit : Option (Limit α K)) (s : State K)
    (source : Spot K) : State K :=
  match g.indexOf? source.edge with
  | none => s
  | some index =>
    match g.at? index with
    | none => s
    | some edge =>
      let whole := startLabel cost limit index edge source
      let ahead := (s.goalsOn index).filter fun goal => !decide (goal.fraction < source.fraction)
      let reached := ahead.foldl (fun s goal => s.push (upTo cost limit edge whole goal)) s
      match s.entry? index with
      | some entry => if whole.cost < entry.cost then reached.enter whole else reached
      | none => reached.enter whole

/-- The targets on edges of the graph. -/
def goals (g : Graph α) (targets : List (Spot K)) : List (Goal K) :=
  targets.zipIdx.filterMap fun (target, place) =>
    (g.indexOf? target.edge).map fun edge => ⟨place, edge, target.fraction⟩

/-- The state with a label for each source. -/
def initial (g : Graph α) (cost : Cost α K) (limit : Option (Limit α K))
    (sources targets : List (Spot K)) : State K :=
  sources.foldl (start g cost limit) ⟨[], [], goals g targets, []⟩

/-! ### Running -/

/-- The label of a successor travelled in full after a label. -/
def nextLabel (cost : Cost α K) (limit : Option (Limit α K)) (l : Label K) (index : Nat)
    (edge : Edge α) : Label K where
  edge := index
  previous := some l.edge
  cost := l.cost + cost.full edge.label
  spent := l.spent + spentFull limit edge.label
  goal := none
  origin := none

/-- Passes on from a label to one successor: reaches the goals on it, and enters it unless it has
been entered. -/
def advance (g : Graph α) (cost : Cost α K) (limit : Option (Limit α K)) (l : Label K)
    (s : State K) (index : Nat) : State K :=
  match g.at? index with
  | none => s
  | some edge =>
    let whole := nextLabel cost limit l index edge
    let reached :=
      (s.goalsOn index).foldl (fun s goal => s.push (upTo cost limit edge whole goal)) s
    if (s.entry? index).isSome then reached else reached.enter whole

/-- Passes on from a label to all successors of its edge. -/
def expand (g : Graph α) (cost : Cost α K) (limit : Option (Limit α K)) (l : Label K)
    (s : State K) : State K :=
  (g.successorIndices l.edge).foldl (advance g cost limit l) s

/-- Finishes a goal by a label, unless it is finished. -/
def finish (l : Label K) (place : Nat) (s : State K) : State K :=
  if s.isFinished place then s
  else
    { s with
      pending := s.pending.filter fun goal => goal.place != place
      finishes := l :: s.finishes }

/-- Whether a label has spent more than the limit. -/
def exceeds (limit : Option (Limit α K)) (l : Label K) : Bool :=
  limit.any fun limit => decide (limit.max < l.spent)

/-- Takes the first label of the queue, unless the search is over. -/
def step (g : Graph α) (cost : Cost α K) (limit : Option (Limit α K)) (s : State K) :
    Option (State K) :=
  match s.queue with
  | [] => none
  | l :: rest =>
    if s.pending.isEmpty || exceeds limit l then none
    else
      let taken := { s with queue := rest }
      match l.goal with
      | some place => some (finish l place taken)
      | none => some (expand g cost limit l taken)

/-- Takes steps until the search is over or the fuel is used up. -/
def run (g : Graph α) (cost : Cost α K) (limit : Option (Limit α K)) : Nat → State K → State K
  | 0, s => s
  | fuel + 1, s =>
    match step g cost limit s with
    | none => s
    | some next => run g cost limit fuel next

/-! ### Routes -/

/-- The labels that led to a label, from its start on. The entries are given newest first. -/
def chain : List (Label K) → Label K → List (Label K)
  | [], l => [l]
  | entry :: older, l =>
    if l.previous = some entry.edge then chain older entry ++ [l] else chain older l

/-- The route to a target, if the search has finished it. -/
def route? (g : Graph α) (s : State K) (place : Nat) : Option (Spot K × List Int) := do
  let finish ← s.finishes.find? fun l => l.goal == some place
  let labels := chain s.entries finish
  let origin ← labels.head?.bind Label.origin
  let edges ← labels.mapM fun l => (g.at? l.edge).map Edge.id
  return (origin, edges)

/-- A number of steps that no search exceeds: each label travelled in full is taken once, and passes
on to every goal on every edge at most. -/
def budget (g : Graph α) (sources targets : List (Spot K)) : Nat :=
  let full := sources.length + g.size
  full * (1 + g.size * targets.length) + sources.length * targets.length + 1

end Run

end Search

open Search in
/-- For each target the cheapest route to it from one of the sources, within the limit: the source
where it starts and its edges. -/
def Graph.routes {α K : Type} [Zero K] [One K] [Add K] [Sub K] [LT K] [DecidableLT K] [Ord K]
    (g : Graph α) (cost : Cost α K) (limit : Option (Limit α K))
    (sources targets : List (Spot K)) : List (Option (Spot K × List Int)) :=
  let final := run g cost limit (budget g sources targets) (initial g cost limit sources targets)
  (List.range targets.length).map (route? g final)

namespace Graph

variable {α K : Type} [Zero K] [One K] [Add K] [Sub K] [LT K] [DecidableLT K] [Ord K]

/-- The edges of the cheapest route from one source to each of the targets. -/
def routesFrom (g : Graph α) (cost : Cost α K) (limit : Option (Limit α K)) (source : Spot K)
    (targets : List (Spot K)) : List (Option (List Int)) :=
  (g.routes cost limit [source] targets).map fun route => route.map Prod.snd

/-- The edges of the cheapest route between two positions. -/
def route? (g : Graph α) (cost : Cost α K) (limit : Option (Limit α K)) (source target : Spot K) :
    Option (List Int) :=
  (g.routesFrom cost limit source [target]).head?.join

end Graph

end RoadMatching
