import RoadMatching.Json.Record
import RoadMatching.Markov.Window
import RoadMatching.Matching.Batch
import RoadMatching.Number.Scalar

/-!
The parameters of matching.

* `Config.standard`: the parameters of which nothing else is said.
* `Config.ofRecord?`: parameters from a JSON record, in which each may be absent.
* `Config.ofVariables`: parameters from texts under names; a text that cannot be read is passed
  over, and a time limit of zero is none.
-/

namespace RoadMatching

/-- The parameters of matching. -/
structure Config (K : Type) where
  /-- The standard deviation of a measured position, in metres. -/
  sigma : K
  /-- The standard deviation of a measured direction, in degrees. -/
  sigmaAzimuth : K
  /-- The rate at which longer travel times become unlikely; zero adapts it to the samples. -/
  lambda : K
  /-- The radius of the search for roads around a sample, in metres. -/
  maxRadius : K
  /-- The length of the longest route between two samples, in metres. -/
  maxDistance : K
  /-- Whether routes that turn around at an end are cut short. -/
  shortenTurns : Bool
  /-- The number of workers; none stands for the number of processors. -/
  threads : Option Nat
  /-- The time limit for the routes of a sample, in milliseconds. -/
  timeout : Option Nat
  /-- The number of steps kept before the last one; a negative one is no bound. -/
  k : Int
  /-- The age in milliseconds of the oldest step kept; it bounds only if it is positive. -/
  t : Int
  deriving Repr

namespace Config

variable {K : Type}

/-- The parameters of which nothing else is said. -/
def standard [NatCast K] : Config K where
  sigma := (5 : Nat)
  sigmaAzimuth := (10 : Nat)
  lambda := (0 : Nat)
  maxRadius := (200 : Nat)
  maxDistance := (15000 : Nat)
  shortenTurns := true
  threads := none
  timeout := none
  k := -1
  t := -1

/-- The window of a match state. -/
def window {P T Q S : Type} (c : Config K) : Window P T Q K S :=
  .bounded (Window.bound? c.k) (Window.bound? c.t)

/-- The workers that find the routes. Their number does not show in the results. -/
def pool (c : Config K) : Pool := .new (c.threads.getD 1) c.timeout

/-! ### Reading -/

/-- The names of the parameters, in the order of a record. -/
def names : List String :=
  ["sigma", "sigma_azimuth", "lambda", "max_radius", "max_distance", "shorten_turns", "threads",
    "timeout_ms", "k", "t"]

/-- The parameters in a record; those that are absent are standard. -/
def ofRecord? [NatCast K] [IntCast K] (json : Json K) : Option (Config K) :=
  match json.record? names 0 with
  | some [sigma, sigmaAzimuth, lambda, maxRadius, maxDistance, shortenTurns, threads, timeout, k,
      t] => do
    let number := fun (default : K) => Json.withDefault default Json.number?
    let usual : Config K := standard
    return {
      sigma := ← number usual.sigma sigma
      sigmaAzimuth := ← number usual.sigmaAzimuth sigmaAzimuth
      lambda := ← number usual.lambda lambda
      maxRadius := ← number usual.maxRadius maxRadius
      maxDistance := ← number usual.maxDistance maxDistance
      shortenTurns := ← Json.withDefault usual.shortenTurns Json.bool? shortenTurns
      threads := ← Json.withDefault usual.threads (fun j => j.natural?.map some) threads
      timeout := ← Json.optional Json.natural? timeout
      k := ← Json.withDefault usual.k Json.integer? k
      t := ← Json.withDefault usual.t Json.integer? t }
  | _ => none

/-- A natural number of 64 bits. -/
def natural? (text : String) : Option Nat :=
  (Decimal.natural? text).filter fun n => n ≤ Json.maxNat64

/-- An integer of 64 bits. -/
def integer? (text : String) : Option Int :=
  (Decimal.integer? text).filter fun n => Json.minInt64 ≤ n && n ≤ Json.maxInt64

/-- A truth value. -/
def truth? : String → Option Bool
  | "true" => some true
  | "false" => some false
  | _ => none

/-- The parameters in texts under names. -/
def ofVariables [NatCast K] [Numeral K] (text? : String → Option String) : Config K :=
  let number := fun (name : String) (default : K) =>
    ((text? name).bind Numeral.read?).getD default
  let integer := fun (name : String) (default : Int) =>
    ((text? name).bind integer?).getD default
  let usual : Config K := standard
  { sigma := number "SIGMA" usual.sigma
    sigmaAzimuth := number "SIGMA_AZIMUTH" usual.sigmaAzimuth
    lambda := number "LAMBDA" usual.lambda
    maxRadius := number "MAX_RADIUS" usual.maxRadius
    maxDistance := number "MAX_DISTANCE" usual.maxDistance
    shortenTurns := ((text? "SHORTEN_TURNS").bind truth?).getD usual.shortenTurns
    threads := ((text? "THREADS").bind natural?).or usual.threads
    timeout := ((text? "TIMEOUT_MS").bind natural?).filter fun limit => 0 < limit
    k := integer "K" usual.k
    t := integer "T" usual.t }

end Config

end RoadMatching
