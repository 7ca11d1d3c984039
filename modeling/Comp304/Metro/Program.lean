import Mathlib.Algebra.Order.Field.Rat
import Mathlib.Data.List.Sort
import Mathlib.Logic.Function.Basic

/-! The metro simulation of `main.cpp`: the four section threads and the
control center as programs over shared state. A region under `trainMutex` is
one step, and so is each read or write of `clearance` outside of it and each
copy of a section queue outside of it. Only the control center takes
`tunnelMutex`, so it orders nothing; sleeping changes no state. Train numbers
are unbounded, and the printing of the debug mode is left out. -/
namespace Comp304.Metro

/-- The ends of the lines. `section1Queue` to `section4Queue` hold the trains
that depart from A, B, E and F. -/
inductive Station where
  | A | B | E | F
  deriving DecidableEq, Repr

def stations : List Station := [.A, .B, .E, .F]

/-- `(float) rand()/RAND_MAX`. -/
abbrev Draw := {x : ℚ // 0 ≤ x ∧ x ≤ 1}

structure Train where
  id : Int
  source : Station
  destination : Station
  length : Nat
  departureTime : Int
  arrivalTime : Int
  deriving DecidableEq, Repr

/-- An entry of the control log. -/
structure Event where
  event : String
  eventTime : Int
  trainId : String
  trainsWaitingPassage : String
  deriving DecidableEq, Repr

/-- Where a section thread stands in its loop. -/
inductive SectionPoint where
  | loopTest
  | overloadCheck
  | secondTest
  | create (length : Nat) (destination : Station)
  deriving DecidableEq, Repr

/-- The two events the control center logs about a train. -/
inductive Notice where
  | tunnelPassing
  | breakdown
  deriving DecidableEq, Repr

def Notice.text : Notice → String
  | tunnelPassing => "Tunnel Passing"
  | breakdown => "Breakdown"

/-- Where the control center stands in its loop. While it runs `trainsWaiting`
without the lock it has a time it read before, a priority queue, and the
sections whose queues it has still to copy. -/
inductive ControlPoint where
  | emptyCheck
  | clearedTest
  | logCleared
  | reset
  | select
  | passing (train : Train)
  | copying (notice : Notice) (train : Train) (time : Int) (pq : List Train) (left : List Station)
  | travel (train : Train)
  | arrive (train : Train)
  deriving DecidableEq, Repr

/-- The globals and where each thread stands. -/
structure State where
  sectionQueue : Station → List Train
  controlLogQueue : List Event
  trainsHashMap : Int → Option Train
  clearance : Bool
  timeToClear : Int
  trainId : Int
  sectionAt : Station → SectionPoint
  controlAt : ControlPoint

/-- The state in which `main` starts the threads. -/
def State.initial : State where
  sectionQueue := fun _ => []
  controlLogQueue := []
  trainsHashMap := fun _ => none
  clearance := false
  timeToClear := 0
  trainId := -1
  sectionAt := fun _ => .loopTest
  controlAt := .emptyCheck

inductive Thread where
  | sectionFunction (source : Station)
  | controlCenter
  deriving DecidableEq, Repr

/-- Which thread makes the step, and what it gets from outside: up to two
readings of the clock, in this order, and the numbers it draws. -/
structure Move where
  thread : Thread
  now : Nat
  later : Nat
  threshold : Draw
  randLength : Draw
  randLine : Draw
  pBreakdown : Draw

namespace State

def setSection (st : State) (source : Station) (point : SectionPoint) : State :=
  { st with sectionAt := Function.update st.sectionAt source point }

def setControl (st : State) (point : ControlPoint) : State := { st with controlAt := point }

/-- `controlLogQueue.push`. -/
def log (st : State) (entry : Event) : State :=
  { st with controlLogQueue := st.controlLogQueue ++ [entry] }

/-- `section1Queue.empty() && … && section4Queue.empty()`. -/
def AllEmpty (st : State) : Prop := ∀ source ∈ stations, st.sectionQueue source = []

instance (st : State) : Decidable st.AllEmpty := inferInstanceAs (Decidable (∀ source ∈ stations, _))

/-- The sum of the four queue sizes. -/
def waiting (st : State) : Nat :=
  (st.sectionQueue .A).length + (st.sectionQueue .B).length + (st.sectionQueue .E).length +
    (st.sectionQueue .F).length

def overload (st : State) : Bool := st.waiting > 10

end State

/-! ### The list of waiting trains -/

/-- `pq.push`, with the smallest id on top. -/
def pushTrain (pq : List Train) (train : Train) : List Train :=
  pq.orderedInsert (fun first second => first.id ≤ second.id) train

def addSectionQueuesToPriorityQueue (pq q : List Train) : List Train := q.foldl pushTrain pq

/-- The text made by emptying the priority queue. -/
def waitingText : List Train → String
  | [] => ""
  | [train] => toString train.id
  | train :: rest => toString train.id ++ "," ++ waitingText rest

/-- A call that no other thread's step comes between. -/
def trainsWaiting (queue : Station → List Train) : String :=
  waitingText (stations.foldl (fun pq source => addSectionQueuesToPriorityQueue pq (queue source)) [])

/-! ### The section threads -/

/-- The probability of creating a train is `1-p` at B and `p` elsewhere. -/
def probCreate (p : Draw) (source : Station) : ℚ := if source = .B then 1 - p.1 else p.1

def trainLength (randLength : Draw) : Nat := if randLength.1 ≤ 7 / 10 then 100 else 200

def trainDestination (source : Station) (randLine : Draw) : Station :=
  if source = .A ∨ source = .B then
    if randLine.1 ≤ 1 / 2 then .E else .F
  else
    if randLine.1 ≤ 1 / 2 then .A else .B

/-- The first region of `sectionFunction`. -/
def overloadRegion (st : State) (now later : Nat) : State :=
  if st.overload then
    let declared :=
      if st.clearance then st
      else { st with timeToClear := now }.log
        ⟨"System Overload", later, "#", trainsWaiting st.sectionQueue⟩
    { declared with clearance := true }
  else st

/-- The second region of `sectionFunction`. -/
def createRegion (st : State) (source : Station) (length : Nat) (destination : Station)
    (now : Nat) : State :=
  let train : Train := ⟨st.trainId + 1, source, destination, length, now, -1⟩
  { st with
    trainId := train.id
    sectionQueue := Function.update st.sectionQueue source (st.sectionQueue source ++ [train])
    trainsHashMap := Function.update st.trainsHashMap train.id (some train) }

def sectionStep (p : Draw) (st : State) (source : Station) (move : Move) : State :=
  match st.sectionAt source with
  | .loopTest => st.setSection source (if st.clearance then .loopTest else .overloadCheck)
  | .overloadCheck => (overloadRegion st move.now move.later).setSection source .secondTest
  | .secondTest =>
    if st.clearance then st.setSection source .loopTest
    else if probCreate p source ≤ move.threshold.1 then
      st.setSection source
        (.create (trainLength move.randLength) (trainDestination source move.randLine))
    else st.setSection source .loopTest
  | .create length destination =>
    (createRegion st source length destination move.now).setSection source .loopTest

/-! ### The control center -/

/-- The longest queue, the first in the order A, B, E, F if several are. -/
def mostCrowded (st : State) : Station :=
  let section1QueueSize := (st.sectionQueue .A).length
  let section2QueueSize := (st.sectionQueue .B).length
  let section3QueueSize := (st.sectionQueue .E).length
  let section4QueueSize := (st.sectionQueue .F).length
  let maxQueueSize :=
    max section1QueueSize (max section2QueueSize (max section3QueueSize section4QueueSize))
  if maxQueueSize = section1QueueSize then .A
  else if maxQueueSize = section2QueueSize then .B
  else if maxQueueSize = section3QueueSize then .E
  else .F

/-- The region that takes a train. `front` and `pop` of an empty queue are
undefined, and the step is then not made. -/
def selectRegion (st : State) : Option State :=
  match st.sectionQueue (mostCrowded st) with
  | [] => none
  | train :: rest =>
    some ({ st with sectionQueue := Function.update st.sectionQueue (mostCrowded st) rest }.setControl
      (.passing train))

/-- The region that notes an arrival, one second after the tunnel. For an id
that is not in the map `operator[]` would insert an empty train, and the step
is then not made. -/
def arriveRegion (st : State) (train : Train) (now : Nat) : Option State :=
  match st.trainsHashMap train.id with
  | none => none
  | some record =>
    some { st with
      trainsHashMap := Function.update st.trainsHashMap train.id
        (some { record with arrivalTime := now + 1 }) }

/-- What the control center does after it has logged the notice. -/
def Notice.next (notice : Notice) (train : Train) : ControlPoint :=
  match notice with
  | tunnelPassing => .travel train
  | breakdown => .arrive train

def controlStep (st : State) (move : Move) : Option State :=
  match st.controlAt with
  | .emptyCheck => some (st.setControl (if st.AllEmpty then .clearedTest else .select))
  | .clearedTest => some (st.setControl (if st.clearance then .logCleared else .reset))
  | .logCleared =>
    let clearTime : Int := move.now - st.timeToClear
    some ((st.log ⟨"Tunnel Cleared", move.later, "#",
      "# Time to clear: " ++ toString clearTime ++ " sec"⟩).setControl .reset)
  | .reset => some ({ st with clearance := false }.setControl .emptyCheck)
  | .select => selectRegion st
  | .passing train => some (st.setControl (.copying .tunnelPassing train move.now [] stations))
  | .copying notice train time pq (source :: left) =>
    some (st.setControl (.copying notice train time
      (addSectionQueuesToPriorityQueue pq (st.sectionQueue source)) left))
  | .copying notice train time pq [] =>
    some ((st.log ⟨notice.text, time, toString train.id, waitingText pq⟩).setControl
      (notice.next train))
  | .travel train =>
    some (st.setControl
      (if move.pBreakdown.1 ≤ 1 / 10 then .copying .breakdown train move.now [] stations
       else .arrive train))
  | .arrive train => do
    let st ← arriveRegion st train move.now
    some (st.setControl .emptyCheck)

/-- One step of the simulation with the probability `p` of its command line. -/
def step (p : Draw) (st : State) (move : Move) : Option State :=
  match move.thread with
  | .sectionFunction source => some (sectionStep p st source move)
  | .controlCenter => controlStep st move

end Comp304.Metro
