import Comp304.Metro.Traffic

/-! What the control log can look like, whichever way the threads interleave. A
clearing is reported only while an overload is, since the flag it is reported for
was set by one; and a breakdown is reported right after the passing of the same
train, overloads apart. Two overloads can follow each other, when the flag of the
first is reset without a report. -/
namespace Comp304.Metro
open Library.Traces

/-- What a reader of the log keeps in mind: whether an overload has been reported
since the last clearing, and the train that may be reported as broken down. -/
structure Reader where
  overloaded : Bool
  passed : Option String
  deriving DecidableEq, Repr

/-- An entry that may come next, and what the reader then keeps in mind. -/
def Reader.next (reader : Reader) (entry : Event) : Option Reader :=
  if entry.event = "System Overload" ∧ entry.trainId = "#" then some { reader with overloaded := true }
  else if entry.event = "Tunnel Cleared" ∧ entry.trainId = "#" ∧ reader.overloaded = true then
    some ⟨false, none⟩
  else if entry.event = "Tunnel Passing" then some { reader with passed := some entry.trainId }
  else if entry.event = "Breakdown" ∧ reader.passed = some entry.trainId then
    some { reader with passed := none }
  else none

/-- Read the log from its first entry; `none` if an entry is out of place. -/
def readLog (log : List Event) : Option Reader := log.foldlM Reader.next ⟨false, none⟩

/-- The train that is in the tunnel with its passing logged, and no breakdown yet. -/
def ControlPoint.announced : ControlPoint → Option Train
  | copying .breakdown train _ _ _ | travel train => some train
  | _ => none

/-- The log can be read, and the reader knows what the threads go by. -/
structure Legible (st : State) : Prop where
  read : ∃ reader, readLog st.controlLogQueue = some reader ∧
    (st.clearance = true → st.controlAt ≠ .reset → reader.overloaded = true) ∧
    ∀ train ∈ st.controlAt.announced, reader.passed = some (toString train.id)
  clearing : st.controlAt = .logCleared → st.clearance = true

section
variable {st st' : State} {p : Draw} {move : Move}

theorem readLog_snoc (log : List Event) (entry : Event) :
    readLog (log ++ [entry]) = (readLog log).bind (Reader.next · entry) := by
  simp [readLog, List.foldlM_append]

theorem Reader.next_cleared {reader : Reader} (reported : reader.overloaded = true) :
    reader.next ⟨"Tunnel Cleared", time, "#", waiting⟩ = some ⟨false, none⟩ := by
  simp [Reader.next, reported]

theorem Reader.next_passing (reader : Reader) : reader.next ⟨"Tunnel Passing", time, name, waiting⟩ =
    some { reader with passed := some name } := by
  simp [Reader.next]

theorem Reader.next_breakdown {reader : Reader} (announced : reader.passed = some name) :
    reader.next ⟨"Breakdown", time, name, waiting⟩ = some { reader with passed := none } := by
  simp [Reader.next, announced]

theorem Legible.initial : Legible .initial where
  read := ⟨⟨false, none⟩, rfl, nofun, fun _ none => by simp [State.initial, ControlPoint.announced] at none⟩
  clearing := nofun

/-- A step that leaves the log and the flag alone. -/
theorem Legible.moved (legible : Legible st) (log : st'.controlLogQueue = st.controlLogQueue)
    (flag : st'.clearance = st.clearance) (reset : st.controlAt = .reset → st'.controlAt = .reset)
    (announced : ∀ train ∈ st'.controlAt.announced, train ∈ st.controlAt.announced)
    (clearing : st'.controlAt = .logCleared → st.clearance = true) : Legible st' where
  read := by
    obtain ⟨reader, read, overloaded, passed⟩ := legible.read
    refine ⟨reader, log ▸ read, fun set off => ?_, fun train inside => passed train (announced train inside)⟩
    exact overloaded (flag ▸ set) fun at_ => off (reset at_)
  clearing at_ := flag ▸ clearing at_

/-- A section thread logs nothing but overloads, and only while the flag is clear. -/
theorem Legible.section (legible : Legible st) (source : Station) :
    Legible (sectionStep p st source move) := by
  unfold sectionStep
  cases st.sectionAt source with
  | loopTest => exact legible.moved rfl rfl id (fun _ => id) legible.clearing
  | overloadCheck =>
    obtain ⟨-, clear, declared⟩ | ⟨-, same⟩ := overloadRegion_cases st move.now move.later
    · obtain ⟨reader, read, -, passed⟩ := legible.read
      simp only [declared]
      refine ⟨⟨{ reader with overloaded := true }, ?_, fun _ _ => rfl, passed⟩, fun _ => rfl⟩
      rw [State.setSection_log, readLog_snoc, read]
      rfl
    · simp only [same]
      exact legible.moved rfl rfl id (fun _ => id) legible.clearing
  | secondTest =>
    dsimp only
    split_ifs <;> exact legible.moved rfl rfl id (fun _ => id) legible.clearing
  | create length destination => exact legible.moved rfl rfl id (fun _ => id) legible.clearing

/-- The control center logs its notices in their places. -/
theorem Legible.control (legible : Legible st) (stepped : controlStep st move = some st') :
    Legible st' := by
  cases controlStep_cases stepped with
  | emptyCheck point =>
    refine legible.moved rfl rfl (by simp [point]) ?_ ?_
    · rw [State.setControl_control]
      split_ifs <;> simp [ControlPoint.announced]
    · rw [State.setControl_control]
      split_ifs <;> simp
  | clearedTest point =>
    refine legible.moved rfl rfl (by simp [point]) ?_ ?_
    · rw [State.setControl_control]
      split_ifs <;> simp [ControlPoint.announced]
    · rw [State.setControl_control]
      split_ifs with set
      · exact fun _ => set
      · simp
  | logCleared point =>
    obtain ⟨reader, read, overloaded, -⟩ := legible.read
    have reported : reader.overloaded = true :=
      overloaded (legible.clearing point) (by simp [point])
    refine ⟨⟨⟨false, none⟩, ?_, fun _ off => absurd rfl off, by simp [ControlPoint.announced]⟩, by simp⟩
    rw [State.setControl_log, State.log_log, readLog_snoc, read]
    exact Reader.next_cleared reported
  | reset point =>
    obtain ⟨reader, read, -, -⟩ := legible.read
    exact ⟨⟨reader, read, fun set => absurd set Bool.false_ne_true, by simp [ControlPoint.announced]⟩, by simp⟩
  | select point train rest front =>
    exact legible.moved rfl rfl (by simp [point]) (by simp [ControlPoint.announced]) (by simp)
  | passing train point =>
    exact legible.moved rfl rfl (by simp [point]) (by simp [ControlPoint.announced]) (by simp)
  | copy notice train time pq source left point =>
    refine legible.moved rfl rfl (by simp [point]) ?_ (by simp)
    rw [State.setControl_control, point]
    cases notice <;> exact fun _ => id
  | note notice train time pq point =>
    obtain ⟨reader, read, overloaded, passed⟩ := legible.read
    have set : st.clearance = true → reader.overloaded = true := fun set =>
      overloaded set (by simp [point])
    cases notice with
    | tunnelPassing =>
      refine ⟨⟨{ reader with passed := some (toString train.id) }, ?_, fun flag _ => set flag, ?_⟩, by simp [Notice.next]⟩
      · rw [State.setControl_log, State.log_log, readLog_snoc, read]
        exact Reader.next_passing reader
      · simp [Notice.next, ControlPoint.announced]
    | breakdown =>
      have announced : reader.passed = some (toString train.id) :=
        passed train (by simp [point, ControlPoint.announced])
      refine ⟨⟨{ reader with passed := none }, ?_, fun flag _ => set flag, ?_⟩, by simp [Notice.next]⟩
      · rw [State.setControl_log, State.log_log, readLog_snoc, read]
        exact Reader.next_breakdown announced
      · simp [Notice.next, ControlPoint.announced]
  | travel train point =>
    refine legible.moved rfl rfl (by simp [point]) ?_ ?_
    · rw [State.setControl_control, point]
      split_ifs
      · exact fun _ => id
      · simp [ControlPoint.announced]
    · rw [State.setControl_control]
      split_ifs <;> simp
  | arrive train record point known =>
    exact legible.moved rfl rfl (by simp [point]) (by simp [ControlPoint.announced]) (by simp)

theorem Legible.step (legible : Legible st) (stepped : step p st move = some st') : Legible st' := by
  unfold Metro.step at stepped
  cases turn : move.thread with
  | sectionFunction source =>
    simp only [turn, Option.some.injEq] at stepped
    exact stepped ▸ legible.section source
  | controlCenter =>
    simp only [turn] at stepped
    exact legible.control stepped

end

/-- At every instant of every run the control log can be read to its end: no
clearing without an overload since the last one, and no breakdown but that of the
train whose passing the control center logged last. -/
theorem run_log_read (run : Run p count state move) (k : ℕ) (inside : k ≤ count) :
    (readLog (state k).controlLogQueue).isSome := by
  have legible : ∀ k ≤ count, Legible (state k) :=
    run.invariant (fun _ st => Legible st) .initial fun i below stepped legible => legible.step stepped
  obtain ⟨reader, read, -⟩ := (legible k inside).read
  simp [read]

def unlucky : Draw := ⟨1 / 1000, by decide +kernel, by decide +kernel⟩

/-- A train departs from A, and it breaks down in the tunnel. -/
def brokenTrip : List Move := List.replicate 4 (turn (.sectionFunction .A)) ++
  List.replicate 15 { turn .controlCenter with pBreakdown := unlucky }

theorem run_log_read_broken_trip :
    (during brokenTrip 19).controlLogQueue.map Event.event = ["Tunnel Passing", "Breakdown"] ∧
      (readLog (during brokenTrip 19).controlLogQueue).isSome := by
  have checked : checkMoves (step half) (fun _ _ => true) .initial brokenTrip = true := by
    decide +kernel
  exact ⟨by decide +kernel, run_log_read (trace_of_check checked) 19 (by decide)⟩

end Comp304.Metro
