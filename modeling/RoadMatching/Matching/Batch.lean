import RoadMatching.Error

/-!
Batches of tasks run by a pool of workers.

The results of a batch stand in the order of its inputs, whatever the number of workers. A batch
fails as a whole: if a task ends too late, or else if a task fails.

* `settle`: the result of a batch whose tasks have ended; `settle_map_some` says that it is that of
  the tasks if none of them fails or is late, `eq_map_of_settle` that it is no other one.
* `Pool.run`: runs a task on every input. When the tasks end is part of the input; if nothing is said
  of it, they end within the first millisecond.
-/

namespace RoadMatching

/-- How a task ended. -/
structure Outcome (β : Type) where
  /-- The result of the task, unless it failed. -/
  result : Option β
  /-- The milliseconds since the start of the batch, the last one being begun. -/
  elapsed : Nat

namespace Outcome

variable {α β : Type}

/-- Whether a task ended within a limit of time. -/
def isTimely (limit : Nat) (o : Outcome β) : Bool := o.elapsed ≤ limit

/-- The results of tasks, all of which must have one. -/
def results : List (Outcome β) → Except BatchError (List β)
  | [] => .ok []
  | o :: rest =>
    match o.result with
    | none => .error .taskFailed
    | some result => (results rest).map (result :: ·)

/-- The results of a batch with a limit of time. -/
def settle (timeout : Option Nat) (outcomes : List (Outcome β)) : Except BatchError (List β) :=
  let timely := match timeout with
    | some limit => outcomes.countP (isTimely limit)
    | none => outcomes.length
  if timely < outcomes.length then .error (.timeout timely outcomes.length)
  else results outcomes

theorem results_map_some (task : α → β) (elapsed : α → Nat) (inputs : List α) :
    results (inputs.map fun x => ⟨some (task x), elapsed x⟩) = .ok (inputs.map task) := by
  induction inputs with
  | nil => rfl
  | cons x rest ih => simp [results, ih, Except.map]

/-- Tasks that do not fail have their results, if none is late. -/
theorem settle_map_some {timeout : Option Nat} {task : α → β} {elapsed : α → Nat} {inputs : List α}
    (h : ∀ limit ∈ timeout, ∀ x ∈ inputs, elapsed x ≤ limit) :
    settle timeout (inputs.map fun x => ⟨some (task x), elapsed x⟩) = .ok (inputs.map task) := by
  unfold settle
  cases timeout with
  | none => simp [results_map_some]
  | some limit =>
    have htimely : (inputs.map fun x => (⟨some (task x), elapsed x⟩ : Outcome β)).countP
        (isTimely limit) = inputs.length := by
      rw [List.countP_eq_length.2, List.length_map]
      intro o ho
      obtain ⟨x, hx, rfl⟩ := List.mem_map.1 ho
      exact decide_eq_true (h limit rfl x hx)
    simp [htimely, results_map_some]

/-- Tasks that do not fail have no other results. -/
theorem eq_map_of_settle {timeout : Option Nat} {task : α → β} {elapsed : α → Nat} {inputs : List α}
    {rows : List β}
    (h : settle timeout (inputs.map fun x => ⟨some (task x), elapsed x⟩) = .ok rows) :
    rows = inputs.map task := by
  have hresults := results_map_some task elapsed inputs
  unfold settle at h
  cases timeout
  all_goals
    dsimp only at h
    split at h
    · cases h
    · exact (Except.ok.inj (hresults.symm.trans h)).symm

end Outcome

/-- Workers, with a limit in milliseconds for each batch. -/
structure Pool where
  threads : Nat
  timeout : Option Nat
  threads_pos : 0 < threads

namespace Pool

variable {α β : Type}

/-- A pool of at least one worker. -/
def new (threads : Nat) (timeout : Option Nat) : Pool :=
  ⟨max threads 1, timeout, by omega⟩

/-- The results of the task for every input, where the tasks end after the milliseconds `elapsed`. -/
def run (pool : Pool) (task : α → Option β) (inputs : List α) (elapsed : α → Nat := fun _ => 1) :
    Except BatchError (List β) :=
  Outcome.settle pool.timeout (inputs.map fun input => ⟨task input, elapsed input⟩)

end Pool

end RoadMatching
