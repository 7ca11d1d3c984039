import Comp304.Metro.Program
import Comp304.Library.Traces

/-! Runs of the simulation, and what their steps do to the trains. Seen from the
trains a step is one of four things: nothing, a departure, an entry into the
tunnel, an exit from it. -/
namespace Comp304.Metro
open Library.Traces

/-- The runs of the five threads, with `state k` after `k` steps. -/
abbrev Run (p : Draw) (count : ℕ) (state : ℕ → State) (move : ℕ → Move) : Prop :=
  Trace (step p) State.initial count state move

theorem mem_stations (source : Station) : source ∈ stations := by
  cases source <;> decide

def half : Draw := ⟨1 / 2, by decide +kernel, by decide +kernel⟩
def one : Draw := ⟨1, by decide +kernel, by decide +kernel⟩

/-- A move of the thread in which every train that may be created is, and no
train breaks down. -/
def turn (thread : Thread) : Move := ⟨thread, 100, 100, one, half, half, half⟩

instance : Inhabited Move := ⟨turn .controlCenter⟩

/-- The states of a list of moves, in a simulation with probability 1/2. -/
abbrev during (moves : List Move) : ℕ → State := stateAt (step half) State.initial moves

/-- The train the control center has taken and not yet seen out. -/
def ControlPoint.train : ControlPoint → Option Train
  | passing train | copying _ train _ _ _ | travel train | arrive train => some train
  | _ => none

/-- The train whose passing has still to be logged. -/
def ControlPoint.unannounced : ControlPoint → List Train
  | passing train | copying .tunnelPassing train _ _ _ => [train]
  | _ => []

namespace State

def inTunnel (st : State) : Option Train := st.controlAt.train

def Holds (id : Int) (st : State) : Prop := ∃ train, st.inTunnel = some train ∧ train.id = id

def passings (st : State) : List Event := st.controlLogQueue.filter (·.event = "Tunnel Passing")

/-- The trains named by the passings, with the one that is about to be. -/
def named (st : State) : List String :=
  st.passings.map Event.trainId ++ st.controlAt.unannounced.map fun train => toString train.id

variable {st : State}

@[simp] theorem setSection_log :
    (st.setSection source point).controlLogQueue = st.controlLogQueue := rfl
@[simp] theorem setSection_control : (st.setSection source point).controlAt = st.controlAt := rfl

@[simp] theorem setSection_section_self :
    (st.setSection source point).sectionAt source = point := Function.update_self ..

theorem setSection_section_of_ne (other : thread ≠ source) :
    (st.setSection source point).sectionAt thread = st.sectionAt thread :=
  Function.update_of_ne other ..

@[simp] theorem setControl_log : (st.setControl point).controlLogQueue = st.controlLogQueue := rfl
@[simp] theorem setControl_control : (st.setControl point).controlAt = point := rfl
@[simp] theorem log_log : (st.log entry).controlLogQueue = st.controlLogQueue ++ [entry] := rfl

end State

/-! ### What a step does to the trains -/

/-- The four things a step can do to the trains, with everything it leaves. -/
inductive TrafficStep (st st' : State) : Prop where
  | quiet (queues : st'.sectionQueue = st.sectionQueue) (records : st'.trainsHashMap = st.trainsHashMap)
      (last : st'.trainId = st.trainId) (tunnel : st'.inTunnel = st.inTunnel)
      (named : st'.named = st.named)
  | depart (train : Train) (ready : st.sectionAt train.source = .create train.length train.destination)
      (fresh : train.id = st.trainId + 1) (away : train.arrivalTime = -1)
      (queues : st'.sectionQueue = Function.update st.sectionQueue train.source
        (st.sectionQueue train.source ++ [train]))
      (records : st'.trainsHashMap = Function.update st.trainsHashMap train.id (some train))
      (last : st'.trainId = train.id) (tunnel : st'.inTunnel = st.inTunnel)
      (named : st'.named = st.named)
  | enter (source : Station) (train : Train) (rest : List Train)
      (front : st.sectionQueue source = train :: rest)
      (queues : st'.sectionQueue = Function.update st.sectionQueue source rest)
      (records : st'.trainsHashMap = st.trainsHashMap) (last : st'.trainId = st.trainId)
      (vacant : st.inTunnel = none) (tunnel : st'.inTunnel = some train)
      (named : st'.named = st.named ++ [toString train.id])
  | leave (train record : Train) (now : Nat) (inside : st.inTunnel = some train)
      (known : st.trainsHashMap train.id = some record)
      (queues : st'.sectionQueue = st.sectionQueue)
      (records : st'.trainsHashMap = Function.update st.trainsHashMap train.id
        (some { record with arrivalTime := now + 1 }))
      (last : st'.trainId = st.trainId) (tunnel : st'.inTunnel = none)
      (named : st'.named = st.named)

/-- The overload region declares an overload, or it changes nothing. -/
theorem overloadRegion_cases (st : State) (now later : Nat) :
    (st.overload = true ∧ st.clearance = false ∧ overloadRegion st now later =
      { st with
        timeToClear := now
        clearance := true
        controlLogQueue := st.controlLogQueue ++
          [⟨"System Overload", later, "#", trainsWaiting st.sectionQueue⟩] }) ∨
    (¬ (st.overload = true ∧ st.clearance = false) ∧ overloadRegion st now later = st) := by
  unfold overloadRegion
  cases crowded : st.overload with
  | false => exact Or.inr ⟨by simp, rfl⟩
  | true =>
    cases clearing : st.clearance with
    | false => exact Or.inl ⟨rfl, rfl, rfl⟩
    | true =>
      refine Or.inr ⟨by simp, ?_⟩
      simp only [if_true, ← clearing]

theorem sectionStep_control (p : Draw) (st : State) (source : Station) (move : Move) :
    (sectionStep p st source move).controlAt = st.controlAt := by
  unfold sectionStep
  cases st.sectionAt source with
  | loopTest | create => rfl
  | overloadCheck =>
    obtain ⟨-, -, declared⟩ | ⟨-, same⟩ := overloadRegion_cases st move.now move.later
    · simp only [declared, State.setSection_control]
    · simp only [same, State.setSection_control]
  | secondTest =>
    dsimp only
    split_ifs <;> rfl

theorem sectionStep_traffic (p : Draw) (st : State) (source : Station) (move : Move) :
    TrafficStep st (sectionStep p st source move) := by
  unfold sectionStep
  cases point : st.sectionAt source with
  | loopTest => exact .quiet rfl rfl rfl rfl rfl
  | overloadCheck =>
    obtain ⟨-, -, declared⟩ | ⟨-, same⟩ := overloadRegion_cases st move.now move.later
    · simp only [declared]
      refine .quiet rfl rfl rfl rfl ?_
      simp [State.named, State.passings]
    · simp only [same]
      exact .quiet rfl rfl rfl rfl rfl
  | secondTest =>
    dsimp only
    split_ifs <;> exact .quiet rfl rfl rfl rfl rfl
  | create length destination =>
    exact .depart ⟨st.trainId + 1, source, destination, length, move.now, -1⟩ point
      rfl rfl rfl rfl rfl rfl rfl

/-- The steps of the control center, by where it stands. -/
inductive ControlStep (st : State) (move : Move) : State → Prop where
  | emptyCheck (point : st.controlAt = .emptyCheck) :
      ControlStep st move (st.setControl (if st.AllEmpty then .clearedTest else .select))
  | clearedTest (point : st.controlAt = .clearedTest) :
      ControlStep st move (st.setControl (if st.clearance then .logCleared else .reset))
  | logCleared (point : st.controlAt = .logCleared) :
      ControlStep st move ((st.log ⟨"Tunnel Cleared", move.later, "#",
        "# Time to clear: " ++ toString ((move.now : Int) - st.timeToClear) ++ " sec"⟩).setControl .reset)
  | reset (point : st.controlAt = .reset) :
      ControlStep st move ({ st with clearance := false }.setControl .emptyCheck)
  | select (point : st.controlAt = .select) (train : Train) (rest : List Train)
      (front : st.sectionQueue (mostCrowded st) = train :: rest) :
      ControlStep st move ({ st with
        sectionQueue := Function.update st.sectionQueue (mostCrowded st) rest }.setControl
          (.passing train))
  | passing (train : Train) (point : st.controlAt = .passing train) :
      ControlStep st move (st.setControl (.copying .tunnelPassing train move.now [] stations))
  | copy (notice : Notice) (train : Train) (time : Int) (pq : List Train) (source : Station)
      (left : List Station) (point : st.controlAt = .copying notice train time pq (source :: left)) :
      ControlStep st move (st.setControl (.copying notice train time
        (addSectionQueuesToPriorityQueue pq (st.sectionQueue source)) left))
  | note (notice : Notice) (train : Train) (time : Int) (pq : List Train)
      (point : st.controlAt = .copying notice train time pq []) :
      ControlStep st move ((st.log ⟨notice.text, time, toString train.id, waitingText pq⟩).setControl
        (notice.next train))
  | travel (train : Train) (point : st.controlAt = .travel train) :
      ControlStep st move (st.setControl
        (if move.pBreakdown.1 ≤ 1 / 10 then .copying .breakdown train move.now [] stations
         else .arrive train))
  | arrive (train record : Train) (point : st.controlAt = .arrive train)
      (known : st.trainsHashMap train.id = some record) :
      ControlStep st move ({ st with
        trainsHashMap := Function.update st.trainsHashMap train.id
          (some { record with arrivalTime := move.now + 1 }) }.setControl .emptyCheck)

theorem controlStep_cases (stepped : controlStep st move = some st') : ControlStep st move st' := by
  unfold controlStep at stepped
  cases point : st.controlAt with
  | emptyCheck =>
    rw [point] at stepped
    cases stepped
    exact .emptyCheck point
  | clearedTest =>
    rw [point] at stepped
    cases stepped
    exact .clearedTest point
  | logCleared =>
    rw [point] at stepped
    cases stepped
    exact .logCleared point
  | reset =>
    rw [point] at stepped
    cases stepped
    exact .reset point
  | select =>
    rw [point] at stepped
    simp only [selectRegion] at stepped
    cases front : st.sectionQueue (mostCrowded st) with
    | nil => simp [front] at stepped
    | cons train rest =>
      rw [front] at stepped
      cases stepped
      exact .select point train rest front
  | passing train =>
    rw [point] at stepped
    cases stepped
    exact .passing train point
  | copying notice train time pq left =>
    cases left with
    | nil =>
      rw [point] at stepped
      cases stepped
      exact .note notice train time pq point
    | cons source left =>
      rw [point] at stepped
      cases stepped
      exact .copy notice train time pq source left point
  | travel train =>
    rw [point] at stepped
    cases stepped
    exact .travel train point
  | arrive train =>
    rw [point] at stepped
    simp only [arriveRegion] at stepped
    cases known : st.trainsHashMap train.id with
    | none => simp [known] at stepped
    | some record =>
      rw [known] at stepped
      cases stepped
      exact .arrive train record point known

/-- The control center moves on with the train it has, if it has one. -/
theorem TrafficStep.moved (queues : st'.sectionQueue = st.sectionQueue)
    (records : st'.trainsHashMap = st.trainsHashMap) (last : st'.trainId = st.trainId)
    (passings : st'.passings = st.passings) (train : st'.controlAt.train = st.controlAt.train)
    (unannounced : st'.controlAt.unannounced = st.controlAt.unannounced) : TrafficStep st st' := by
  refine .quiet queues records last train ?_
  simp only [State.named, passings, unannounced]

/-- A log entry under another name leaves the passings alone. -/
theorem passings_log (st : State) (other : entry.event ≠ "Tunnel Passing") :
    (st.log entry).passings = st.passings := by
  simp [State.passings, other]

/-- Logging the notice about a train. -/
theorem notice_traffic (point : st.controlAt = .copying notice train time pq []) :
    TrafficStep st ((st.log ⟨notice.text, time, toString train.id, waitingText pq⟩).setControl
      (notice.next train)) := by
  cases notice with
  | tunnelPassing =>
    refine .quiet rfl rfl rfl ?_ ?_
    · simp [State.inTunnel, point, ControlPoint.train, Notice.next]
    · simp [State.named, State.passings, point, ControlPoint.unannounced, Notice.next, Notice.text]
  | breakdown =>
    refine .moved rfl rfl rfl (passings_log st (by simp [Notice.text])) ?_ ?_
    · simp [point, ControlPoint.train, Notice.next]
    · simp [point, ControlPoint.unannounced, Notice.next]

theorem controlStep_traffic (stepped : controlStep st move = some st') : TrafficStep st st' := by
  cases controlStep_cases stepped with
  | emptyCheck point | clearedTest point =>
    refine .moved rfl rfl rfl rfl ?_ ?_
    · rw [State.setControl_control, point]
      split_ifs <;> rfl
    · rw [State.setControl_control, point]
      split_ifs <;> rfl
  | logCleared point =>
    exact .moved rfl rfl rfl (passings_log st (by simp)) (by rw [point]; rfl) (by rw [point]; rfl)
  | reset point => exact .moved rfl rfl rfl rfl (by rw [point]; rfl) (by rw [point]; rfl)
  | select point train rest front =>
    refine .enter (mostCrowded st) train rest front rfl rfl rfl ?_ rfl ?_
    · simp [State.inTunnel, point, ControlPoint.train]
    · simp [State.named, State.passings, point, ControlPoint.unannounced]
  | passing train point => exact .moved rfl rfl rfl rfl (by rw [point]; rfl) (by rw [point]; rfl)
  | copy notice train time pq source left point =>
    refine .moved rfl rfl rfl rfl (by rw [point]; rfl) ?_
    rw [point]
    cases notice <;> rfl
  | note notice train time pq point => exact notice_traffic point
  | travel train point =>
    refine .moved rfl rfl rfl rfl ?_ ?_
    · rw [State.setControl_control, point]
      split_ifs <;> rfl
    · rw [State.setControl_control, point]
      split_ifs <;> rfl
  | arrive train record point known =>
    refine .leave train record move.now ?_ known rfl rfl rfl rfl ?_
    · simp [State.inTunnel, point, ControlPoint.train]
    · simp [State.named, State.passings, point, ControlPoint.unannounced]

theorem step_traffic (stepped : step p st move = some st') : TrafficStep st st' := by
  unfold step at stepped
  cases turn : move.thread with
  | sectionFunction source =>
    simp only [turn, Option.some.injEq] at stepped
    subst stepped
    exact sectionStep_traffic p st source move
  | controlCenter =>
    simp only [turn] at stepped
    exact controlStep_traffic stepped

end Comp304.Metro
