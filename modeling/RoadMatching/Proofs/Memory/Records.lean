import RoadMatching.Markov.Snapshot
import RoadMatching.Proofs.Memory.Updates
import RoadMatching.Proofs.Number.Special

/-!
What is read back of what a snapshot says.

Each part of a snapshot is an object that is read as a record. Numbers keep their value, but an
infinity or the undefined value is read as the one its text stands for.

* `Json.field?_object`, `Json.listOf?_map`: the fields of an object, and the items of an array.
* `Probability.settle`: the number that is read back of a number; `Binary64.settle_eq`,
  `Held.settle_eq`: for a binary64 number this is the number itself, unless it is undefined and has
  a sign.
* `Codec.Keeps`: the parts of a candidate survive being written and read.
  `Codec.readCandidate_write`: so does the candidate then, but for its predecessor.
* `Window.stepRecord?_write`, `Window.heldRecord?_write`, `Window.record?_toSnapshot`: the records
  of the parts of a memory.
-/

namespace RoadMatching

variable {P T Q K : Type}

/-! ### Objects and arrays -/

/-- A key is looked up among some of the fields, if its own is one of them. -/
lemma lookup_filter_key {α : Type} {p : String → Bool} {key : String} (h : p key = true)
    (fields : List (String × α)) :
    (fields.filter fun field => p field.1).lookup key = fields.lookup key := by
  induction fields with
  | nil => rfl
  | cons field rest ih =>
    obtain ⟨k, value⟩ := field
    by_cases hk : key = k
    · subst hk
      rw [List.filter_cons, if_pos h, List.lookup_cons_self, List.lookup_cons_self]
    · have hne : (key == k) = false := beq_eq_false_iff_ne.2 hk
      rw [List.lookup_cons, hne, ← ih, List.filter_cons]
      split
      · rw [List.lookup_cons, hne]
      · rfl

namespace Json

/-- An object has the last value of each key. -/
lemma field?_object (fields : List (String × Json K)) (key : String) :
    (object fields).field? key = fields.reverse.lookup key := by
  induction fields using List.reverseRecOn with
  | nil => rfl
  | append_singleton fields field ih =>
    obtain ⟨k, value⟩ := field
    rw [field?_object_append, ih, List.reverse_append, List.reverse_singleton,
      List.singleton_append, List.lookup_cons]
    by_cases h : key = k
    · simp [h]
    · rw [if_neg h, beq_eq_false_iff_ne.2 h]

/-- The fields of an object that is read as a record. -/
lemma record?_object (fields : List (String × Json K)) (names : List String) (least : Nat) :
    (object fields).record? names least =
      some (names.map fun name => fields.reverse.lookup name) :=
  congrArg some (List.map_congr_left fun name _ => field?_object fields name)

/-- An array of values that are all read back. -/
lemma listOf?_map {α β : Type} {read : Json K → Option β} {write : α → Json K} {f : α → β}
    {xs : List α} (h : ∀ x ∈ xs, read (write x) = some (f x)) :
    listOf? read (.arr (xs.map write)) = some (xs.map f) := by
  show (xs.map write).mapM read = _
  induction xs with
  | nil => rfl
  | cons x xs ih =>
    rw [List.map_cons, List.mapM_cons, h x List.mem_cons_self,
      ih fun y hy => h y (List.mem_cons_of_mem x hy)]
    rfl

end Json

/-! ### Numbers -/

section Numbers

variable [Extended K]

/-- The number that is read back of a number: an infinity or the undefined value in its one form. -/
def Probability.settle (x : K) : K :=
  match Extended.kind x with
  | .finite => x
  | .infinite negative => Extended.infinite negative
  | .undefined => Extended.undefined

/-- The candidate with its numbers as they are read back. -/
def Candidate.settle (c : Candidate P T K K) : Candidate P T K K :=
  { c with belief := Probability.settle c.belief, score := Probability.settle c.score }

/-- The candidate held with its numbers as they are read back. -/
def Held.settle (e : Held P T K K) : Held P T K K := { e with candidate := e.candidate.settle }

end Numbers

/-- A number is read back of its JSON value. -/
lemma Probability.ofJson_toJson [Numeral K] [IntCast K] (x : K) :
    ofJson (toJson x) = .ok (settle x) := by
  rw [toJson, settle]
  cases Extended.kind x with
  | finite => rfl
  | infinite negative => cases negative <;> rfl
  | undefined => rfl

/-- A binary64 number is read back as it is, unless it is undefined and has a sign. -/
theorem Binary64.settle_eq {x : Binary64} (h : x.negated = false) : Probability.settle x = x := by
  obtain ⟨value, negated, hnan⟩ := x
  obtain rfl : negated = false := h
  rw [Probability.settle]
  cases hkind : Extended.kind (⟨value, false, hnan⟩ : Binary64) with
  | finite => rfl
  | infinite negative => exact (eq_infinite_of_kind hkind).symm
  | undefined => exact (eq_undefined_of_kind hkind).symm

/-- So is a candidate held, if its numbers are. -/
lemma Held.settle_eq {e : Held P T Binary64 Binary64} (hbelief : e.candidate.belief.negated = false)
    (hscore : e.candidate.score.negated = false) : e.settle = e := by
  simp only [settle, Candidate.settle, Binary64.settle_eq hbelief, Binary64.settle_eq hscore]

/-! ### Candidates -/

namespace Codec

/-- The parts of a candidate survive being written and read. -/
structure Keeps (codec : Codec P T Q K) (c : Candidate P T K K) : Prop where
  payload : codec.readPayload (codec.writePayload c.payload) = .ok c.payload
  transition : ∀ t, c.transition = some t →
    codec.readTransition (codec.writeTransition t) = .ok t ∧ codec.writeTransition t ≠ .null

/-- The key of the payload is none of the other keys of a candidate. -/
def HasOwnKey (codec : Codec P T Q K) : Prop := codec.payloadKey ∉ ownKeys

variable [Numeral K]

omit [Numeral K] in
/-- The parts of a candidate in an object of fields. A key of its own is one of the other fields. -/
lemma candidateRecord?_object {key : String} (h : key ∉ ownKeys) (fields : List (String × Json K)) :
    ∃ others, (candidateRecord? (Json.object fields) = do
        return {
          id := ← (fields.reverse.lookup "id").bind Json.string?
          belief := ← fields.reverse.lookup "filtprob"
          score := ← fields.reverse.lookup "seqprob"
          transition := ← Json.optional some (fields.reverse.lookup "transition")
          others }) ∧
      others.lookup key = fields.reverse.lookup key := by
  have hother : (!ownKeys.contains key) = true := by simpa using h
  simp only [← Json.field?_object]
  exact ⟨_, rfl, lookup_filter_key (p := fun k => !ownKeys.contains k) hother _⟩

/-- The parts of a candidate that has been written. Its payload is one of the other fields. -/
lemma candidateRecord?_write {codec : Codec P T Q K} (hkey : codec.HasOwnKey)
    {c : Candidate P T K K} (h : codec.Keeps c) :
    ∃ others, candidateRecord? (codec.writeCandidate c) =
        some ⟨c.id, Probability.toJson c.belief, Probability.toJson c.score,
          c.transition.map codec.writeTransition, others⟩ ∧
      others.lookup codec.payloadKey = some (codec.writePayload c.payload) := by
  obtain ⟨others, hrecord, hlookup⟩ := candidateRecord?_object hkey _
  refine ⟨others, hrecord.trans ?_, hlookup.trans ?_⟩
  · simp only [HasOwnKey, ownKeys, List.mem_cons, List.not_mem_nil, or_false, not_or] at hkey
    obtain ⟨hid, hbelief, hscore, htransition⟩ := hkey
    cases ht : c.transition with
    | none =>
      simp [List.lookup_cons, Ne.symm hid, Ne.symm hbelief, Ne.symm hscore, Ne.symm htransition,
        beq_eq_false_iff_ne.2, Json.string?, Json.optional]
    | some t =>
      obtain ⟨-, hnull⟩ := h.transition t ht
      have hoptional : Json.optional some (some (codec.writeTransition t)) =
          some (some (codec.writeTransition t)) := by
        rw [Json.optional]
        · rfl
        · exact hnull
      simp [List.lookup_cons, Ne.symm hid, Ne.symm hbelief, Ne.symm hscore, Ne.symm htransition,
        beq_eq_false_iff_ne.2, Json.string?, hoptional]
  · rw [List.reverse_append, List.reverse_singleton, List.singleton_append, List.lookup_cons_self]

/-- A candidate is read back without its predecessor. -/
lemma readCandidate_write [IntCast K] {codec : Codec P T Q K} (hkey : codec.HasOwnKey)
    {c : Candidate P T K K} (h : codec.Keeps c) :
    codec.readCandidate (codec.writeCandidate c) = .ok { c.settle with predecessor := none } := by
  obtain ⟨others, hrecord, hpayload⟩ := candidateRecord?_write hkey h
  obtain ⟨id, payload, predecessor, transition, belief, score⟩ := c
  have hread : codec.readPayload (codec.writePayload payload) = .ok payload := h.payload
  rw [readCandidate, hrecord]
  simp only [ofShape, hpayload, hread, Probability.ofJson_toJson, bind, Except.bind]
  cases transition with
  | none => rfl
  | some t =>
    simp only [Option.map_some, (h.transition t rfl).1]
    rfl

end Codec

/-! ### Memories -/

namespace Window

/-- The link of a candidate that has been written. -/
def linkOf (c : Candidate P T K K) : LinkRecord := ⟨c.id, c.predecessor.getD ""⟩

/-- The record of a step that has been written. -/
def recordOf (codec : Codec P T Q K) (w : Window P T Q K K) (step : Step Q) : StepRecord K :=
  ⟨(w.resolve step).map linkOf, codec.writeSample step.sample, step.estimate⟩

/-- A step is read back as its record. -/
lemma stepRecord?_write (codec : Codec P T Q K) (w : Window P T Q K K) (step : Step Q) :
    stepRecord? (writeStep codec w step) = some (recordOf codec w step) := by
  set link : Candidate P T K K → Json K := fun c =>
    Json.object [("candid", .str c.id), ("predid", .str (c.predecessor.getD ""))] with hdef
  have hlink : ∀ c, linkRecord? (link c) = some (linkOf c) := by
    intro c
    rw [linkRecord?, hdef, Json.record?_object]
    rfl
  have hread : stepRecord? (writeStep codec w step) =
      (Json.listOf? linkRecord? (.arr ((w.resolve step).map link))).bind fun links =>
        some ⟨links, codec.writeSample step.sample, step.estimate⟩ := by
    rw [stepRecord?, writeStep, Json.record?_object]
    rfl
  rw [hread, Json.listOf?_map fun c _ => hlink c]
  rfl

variable [Numeral K]

/-- A candidate held is read back with its references, if their number is one of 64 bits. -/
lemma heldRecord?_write (codec : Codec P T Q K) {e : Held P T K K}
    (h : e.references < 18446744073709551616) :
    heldRecord? (writeHeld codec e) = some ⟨codec.writeCandidate e.candidate, e.references⟩ := by
  have hcount : Json.natural? (.int e.references : Json K) = some e.references := by
    rw [Json.natural?, if_pos, Int.toNat_natCast]
    rw [Json.maxNat64]
    omega
  have hread : heldRecord? (writeHeld codec e) =
      (Json.natural? (.int e.references : Json K)).bind fun count =>
        some ⟨codec.writeCandidate e.candidate, count⟩ := by
    rw [heldRecord?, writeHeld, Json.record?_object]
    rfl
  rw [hread, hcount]
  rfl

/-- The integer by which a bound is written. -/
def boundInteger (bound : Option Nat) : Int := bound.elim (-1) fun n => signed64 n

/-- A bound below the signs of 64 bits is read back. -/
lemma bound?_boundInteger {bound : Option Nat} (h : ∀ n ∈ bound, n < 9223372036854775808) :
    bound? (boundInteger bound) = bound := by
  cases bound with
  | none => rfl
  | some n =>
    have hlt := h n rfl
    have hsigned : signed64 n = n := signed64_of_mem (by omega) (by omega)
    rw [boundInteger, Option.elim_some, hsigned, bound?, if_neg (by omega), Int.toNat_natCast]

omit [Numeral K] in
/-- The integer of a bound is one of 64 bits. -/
lemma integer?_writeBound (bound : Option Nat) :
    Json.integer? (writeBound bound : Json K) = some (boundInteger bound) := by
  have hrange : Json.minInt64 ≤ boundInteger bound ∧ boundInteger bound ≤ Json.maxInt64 := by
    rw [Json.minInt64, Json.maxInt64]
    cases bound with
    | none => decide
    | some n =>
      rw [boundInteger, Option.elim_some, signed64, Int.bmod_def]
      omega
  exact if_pos hrange

/-- The record of a memory that has been written. -/
lemma record?_toSnapshot (codec : Codec P T Q K) {w : Window P T Q K K}
    (h : ∀ e ∈ w.held.values, e.references < 18446744073709551616) :
    record? (toSnapshot codec w) = some {
      maxSteps := boundInteger w.maxSteps
      maxAge := boundInteger w.maxAge
      steps := w.steps.map (recordOf codec w)
      held := w.held.values.map fun e => ⟨codec.writeCandidate e.candidate, e.references⟩
      broken := w.broken } := by
  have hread : record? (toSnapshot codec w) =
      (Json.integer? (writeBound w.maxSteps : Json K)).bind fun maxSteps =>
        (Json.integer? (writeBound w.maxAge : Json K)).bind fun maxAge =>
          (Json.listOf? stepRecord? (.arr (w.steps.map (writeStep codec w)))).bind fun steps =>
            (Json.listOf? heldRecord? (.arr (w.held.values.map (writeHeld codec)))).bind
              fun held => some ⟨maxSteps, maxAge, steps, held, w.broken⟩ := by
    rw [record?, toSnapshot, Json.record?_object]
    rfl
  rw [hread, integer?_writeBound, integer?_writeBound,
    Json.listOf?_map fun step _ => stepRecord?_write codec w step,
    Json.listOf?_map fun e he => heldRecord?_write codec (h e he)]
  rfl

end Window

end RoadMatching
