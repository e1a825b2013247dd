/-
Concurrent calls for one key share one run of their function
(`src/storage/part_cache/single_flight.rs`).

A call finds the cell of its key in the map, or makes one, and waits for the
cell's value. The cell is a `OnceCell`: one call at a time runs its function
to fill it, a run that fails or is dropped leaves it empty for the next, and
once it is filled every call that holds it takes the value. The last call to
let go of a cell takes it out of the map.

Any number of calls are stepped in any order (`step`); each step is one poll
of a call's future, or one drop. The cell of `step` lets any waiting call take
a free permit. That is more than tokio's `OnceCell` does, whose semaphore is
first come, first served: `Queued.step` keeps its queue too, and makes the
steps of `step` that the queue admits.
-/
import Mathlib.Logic.Function.Basic
import Mathlib.Logic.Relation
import Mathlib.Tactic.Common

namespace Miscreant

/-- What is behind an `Arc<OnceCell<T>>`, with the key it was made for. -/
structure FlightCell (K T : Type) where
  key : K
  value : Option T
  /-- The permit of `get_or_try_init` is taken. -/
  busy : Bool
  /-- `Arc::strong_count`. -/
  strong : Nat
  deriving DecidableEq, Repr

/-- `SingleFlight`: the map of the calls in flight, and the cells allocated
so far. -/
structure SingleFlight (K T : Type) where
  inFlight : K → Option Nat
  cells : Nat → Option (FlightCell K T)
  next : Nat

/-- What `get_or_try_init` finds: a value, a permit to run, or neither. -/
inductive FlightPoll (T : Type)
  | ready (value : T)
  | run
  | pending
  deriving DecidableEq, Repr

namespace SingleFlight

variable {K T E : Type} [DecidableEq K]

/-- `SingleFlight::new`. -/
def new : SingleFlight K T := ⟨fun _ => none, fun _ => none, 0⟩

/-- A cell written to. -/
def modify (s : SingleFlight K T) (c : Nat) (f : FlightCell K T → FlightCell K T) : SingleFlight K T :=
  { s with cells := Function.update s.cells c ((s.cells c).map f) }

/-- The lookup of `call`, under the lock: the key's cell is shared, or made
with one `Arc` for the map and one for the call. -/
def enter (s : SingleFlight K T) (key : K) : Nat × SingleFlight K T :=
  match s.inFlight key with
  | some c => (c, s.modify c fun cell => { cell with strong := cell.strong + 1 })
  | none =>
    (s.next,
      { inFlight := Function.update s.inFlight key (some s.next)
        cells := Function.update s.cells s.next (some ⟨key, none, false, 2⟩)
        next := s.next + 1 })

/-- `get_or_try_init` up to its closure. -/
def poll (s : SingleFlight K T) (c : Nat) : FlightPoll T × SingleFlight K T :=
  match s.cells c with
  | none => (.pending, s)
  | some cell =>
    match cell.value with
    | some value => (.ready value, s)
    | none =>
      if cell.busy then (.pending, s) else (.run, s.modify c fun cell => { cell with busy := true })

/-- The end of a closure's run: the value is set if there is one, and the
permit given back. -/
def settle (s : SingleFlight K T) (c : Nat) (value : Option T) : SingleFlight K T :=
  s.modify c fun cell => { cell with value, busy := false }

/-- `EntryGuard::drop`: the call's `Arc` goes first, then the key's entry if
the map holds the only other one. -/
def leave (s : SingleFlight K T) (key : K) (c : Nat) : SingleFlight K T :=
  let s := s.modify c fun cell => { cell with strong := cell.strong - 1 }
  match s.inFlight key with
  | none => s
  | some c' =>
    if (s.cells c').map (·.strong) = some 1 then
      { s.modify c' fun cell => { cell with strong := 0 } with inFlight := Function.update s.inFlight key none }
    else s

/-! ## Calls -/

/-- Where a call is; the result of a dropped one is `none`. -/
inductive Phase (T E : Type)
  | waiting
  | running
  /-- The guard is still held. -/
  | leaving (result : Option (Except E T))
  | returned (result : Option (Except E T))

/-- A call under way. -/
structure Call (K T E : Type) where
  key : K
  cell : Nat
  phase : Phase T E

/-- A call whose guard is held. -/
def Phase.live : Phase T E → Bool
  | returned _ => false
  | _ => true

def Phase.isRunning : Phase T E → Bool
  | running => true
  | _ => false

/-- What a call is about to return, or has. -/
def Phase.result : Phase T E → Option (Except E T)
  | leaving result | returned result => result
  | _ => none

/-- The calls of a process, by the order they came in. -/
structure System (K T E : Type) where
  flights : SingleFlight K T
  calls : List (Call K T E)

/-- Before any call. -/
def System.start : System K T E := ⟨.new, []⟩

inductive Action (K T E : Type)
  | enter (key : K)
  | poll (i : Nat)
  | finish (i : Nat) (value : T)
  | fail (i : Nat) (error : E)
  /-- The future is dropped before it has returned. -/
  | cancel (i : Nat)
  | leave (i : Nat)

/-- Call `i` moved to another phase. -/
def System.move (s : System K T E) (i : Nat) (call : Call K T E) (phase : Phase T E) (flights : SingleFlight K T) :
    System K T E :=
  ⟨flights, s.calls.set i { call with phase }⟩

/-- One step; `none` when the call can not do it. -/
def step (s : System K T E) : Action K T E → Option (System K T E)
  | .enter key => some ⟨(s.flights.enter key).2, s.calls ++ [⟨key, (s.flights.enter key).1, .waiting⟩]⟩
  | .poll i =>
    match s.calls[i]? with
    | some call =>
      match call.phase, s.flights.poll call.cell with
      | .waiting, (.ready value, flights) => some (s.move i call (.leaving (some (.ok value))) flights)
      | .waiting, (.run, flights) => some (s.move i call .running flights)
      | _, _ => none
    | none => none
  | .finish i value =>
    match s.calls[i]? with
    | some call =>
      match call.phase with
      | .running => some (s.move i call (.leaving (some (.ok value))) (s.flights.settle call.cell (some value)))
      | _ => none
    | none => none
  | .fail i error =>
    match s.calls[i]? with
    | some call =>
      match call.phase with
      | .running => some (s.move i call (.leaving (some (.error error))) (s.flights.settle call.cell none))
      | _ => none
    | none => none
  | .cancel i =>
    match s.calls[i]? with
    | some call =>
      match call.phase with
      | .waiting => some (s.move i call (.leaving none) s.flights)
      | .running => some (s.move i call (.leaving none) (s.flights.settle call.cell none))
      | _ => none
    | none => none
  | .leave i =>
    match s.calls[i]? with
    | some call =>
      match call.phase with
      | .leaving result => some (s.move i call (.returned result) (s.flights.leave call.key call.cell))
      | _ => none
    | none => none

/-- The steps one after another. -/
def steps (s : System K T E) : List (Action K T E) → Option (System K T E)
  | [] => some s
  | a :: acts => (step s a).bind fun s' => steps s' acts

/-- The runs from a state, with what was done. -/
inductive Runs (s : System K T E) : List (Action K T E) → System K T E → Prop
  | nil : Runs s [] s
  | snoc {acts s' a s''} (h : Runs s acts s') (hstep : step s' a = some s'') : Runs s (acts ++ [a]) s''

/-! ## The queue of the permit -/

/-- The calls in the queue of a cell's semaphore, the longest waiting first,
and the call the permit was handed to, while that has not been polled. -/
structure Queue where
  waiting : List Nat
  granted : Option Nat
  deriving DecidableEq, Repr

/-- The permit given back: the call that has waited longest gets it. -/
def Queue.release (q : Queue) : Queue :=
  match q.waiting with
  | [] => ⟨[], none⟩
  | i :: waiting => ⟨waiting, some i⟩

/-- A poll that finds no permit. -/
def Queue.join (q : Queue) (i : Nat) : Queue :=
  if i ∈ q.waiting then q else { q with waiting := q.waiting ++ [i] }

/-- A poll that finds the permit, or the semaphore closed. -/
def Queue.serve (q : Queue) (i : Nat) : Queue := ⟨q.waiting.filter (· ≠ i), none⟩

/-- A waiting future dropped: a permit it was handed goes to the next. -/
def Queue.quit (q : Queue) (i : Nat) : Queue :=
  let left : Queue := { q with waiting := q.waiting.filter (· ≠ i) }
  if q.granted = some i then left.release else left

/-- The calls of a process, with the queue of each cell. -/
structure Queued (K T E : Type) where
  system : System K T E
  queues : Nat → Queue

def Queued.start : Queued K T E := ⟨.start, fun _ => ⟨[], none⟩⟩

/-- The system and the queue of a cell after a step. -/
def Queued.next (s : Queued K T E) (c : Nat) (system : System K T E) (q : Queue) : Queued K T E :=
  ⟨system, Function.update s.queues c q⟩

/-- One step; a poll that finds no permit waits in the queue. -/
def Queued.step (s : Queued K T E) : Action K T E → Option (Queued K T E)
  | .enter key => (SingleFlight.step s.system (.enter key)).map fun system => { s with system }
  | .leave i => (SingleFlight.step s.system (.leave i)).map fun system => { s with system }
  | .poll i =>
    match s.system.calls[i]? with
    | some call =>
      let q := s.queues call.cell
      match call.phase, SingleFlight.step s.system (.poll i) with
      | .waiting, some system =>
        if q.granted = none ∨ q.granted = some i then some (s.next call.cell system (q.serve i))
        else some (s.next call.cell s.system (q.join i))
      | .waiting, none => some (s.next call.cell s.system (q.join i))
      | _, _ => none
    | none => none
  | .finish i value =>
    match s.system.calls[i]?, SingleFlight.step s.system (.finish i value) with
    | some call, some system => some (s.next call.cell system ⟨[], none⟩)
    | _, _ => none
  | .fail i error =>
    match s.system.calls[i]?, SingleFlight.step s.system (.fail i error) with
    | some call, some system => some (s.next call.cell system (s.queues call.cell).release)
    | _, _ => none
  | .cancel i =>
    match s.system.calls[i]?, SingleFlight.step s.system (.cancel i) with
    | some call, some system =>
      let q := s.queues call.cell
      some (s.next call.cell system (if call.phase.isRunning then q.release else q.quit i))
    | _, _ => none

/-- The steps one after another. -/
def Queued.steps (s : Queued K T E) : List (Action K T E) → Option (Queued K T E)
  | [] => some s
  | a :: acts => (s.step a).bind fun s' => s'.steps acts

/-- The runs from a state, with what was done. -/
inductive Queued.Runs (s : Queued K T E) : List (Action K T E) → Queued K T E → Prop
  | nil : Runs s [] s
  | snoc {acts s' a s''} (h : Runs s acts s') (hstep : s'.step a = some s'') : Runs s (acts ++ [a]) s''

end SingleFlight

end Miscreant
