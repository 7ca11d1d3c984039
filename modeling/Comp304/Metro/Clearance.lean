import Comp304.Metro.Traffic

/-! The clearance mode. A section thread sets `clearance` when it finds more
than ten trains waiting, and the control center resets it after it has found
no train waiting. Both the reset and the departures are made on the strength
of a test that another thread's declaration may have overtaken. -/
namespace Comp304.Metro
open Library.Traces

/-- How far the control center is with a reset: it may have decided on one, and
then tests `clearance`, logs the clearing, and writes the flag. -/
inductive Phase where
  | idle
  | test
  | note
  | reset
  deriving DecidableEq, Repr

def ControlPoint.phase : ControlPoint → Phase
  | clearedTest => .test
  | logCleared => .note
  | reset => .reset
  | _ => .idle

def SectionPoint.creating : SectionPoint → Bool
  | create _ _ => true
  | _ => false

/-- The move is a region that declares an overload. -/
def declares (st : State) (move : Move) : Bool :=
  match move.thread with
  | .sectionFunction source => decide (st.sectionAt source = .overloadCheck) && st.overload && !st.clearance
  | .controlCenter => false

/-- The overloads and clearings in the control log. -/
def clearanceEntries (st : State) : List String :=
  (st.controlLogQueue.map Event.event).filter fun event =>
    event = "System Overload" || event = "Tunnel Cleared"

theorem clearanceEntries_log (st : State) (entry : Event) : clearanceEntries (st.log entry) =
    clearanceEntries st ++ [entry.event].filter fun event =>
      event = "System Overload" || event = "Tunnel Cleared" := by
  simp [clearanceEntries]

/-- What a step does to the flag, to its log and to a pending reset. -/
inductive ClearanceStep (st : State) (move : Move) (st' : State) : Prop where
  | still (flag : st'.clearance = st.clearance) (entries : clearanceEntries st' = clearanceEntries st)
      (phase : st'.controlAt.phase = st.controlAt.phase)
  | declare (declaring : declares st move = true) (clear : st.clearance = false)
      (flag : st'.clearance = true)
      (entries : clearanceEntries st' = clearanceEntries st ++ ["System Overload"])
      (phase : st'.controlAt.phase = st.controlAt.phase)
  | decide (empty : st.AllEmpty) (flag : st'.clearance = st.clearance)
      (entries : clearanceEntries st' = clearanceEntries st)
      (before : st.controlAt.phase = .idle) (phase : st'.controlAt.phase = .test)
  | test (flag : st'.clearance = st.clearance) (entries : clearanceEntries st' = clearanceEntries st)
      (before : st.controlAt.phase = .test)
      (phase : st'.controlAt.phase = if st.clearance then .note else .reset)
  | note (flag : st'.clearance = st.clearance)
      (entries : clearanceEntries st' = clearanceEntries st ++ ["Tunnel Cleared"])
      (before : st.controlAt.phase = .note) (phase : st'.controlAt.phase = .reset)
  | reset (flag : st'.clearance = false) (entries : clearanceEntries st' = clearanceEntries st)
      (before : st.controlAt.phase = .reset) (phase : st'.controlAt.phase = .idle)

theorem sectionStep_clearance (turn : move.thread = .sectionFunction source) :
    ClearanceStep st move (sectionStep p st source move) := by
  unfold sectionStep
  cases point : st.sectionAt source with
  | loopTest => exact .still rfl rfl rfl
  | overloadCheck =>
    obtain ⟨crowded, clear, declared⟩ | ⟨-, same⟩ := overloadRegion_cases st move.now move.later
    · simp only [declared]
      refine .declare (by simp [declares, turn, point, crowded, clear]) clear rfl ?_ rfl
      exact clearanceEntries_log st _
    · simp only [same]
      exact .still rfl rfl rfl
  | secondTest =>
    dsimp only
    split_ifs <;> exact .still rfl rfl rfl
  | create length destination => exact .still rfl rfl rfl

theorem controlStep_clearance (stepped : controlStep st move = some st') :
    ClearanceStep st move st' := by
  cases controlStep_cases stepped with
  | emptyCheck point =>
    by_cases empty : st.AllEmpty
    · rw [if_pos empty]
      exact .decide empty rfl rfl (by rw [point]; rfl) rfl
    · rw [if_neg empty]
      exact .still rfl rfl (by rw [point]; rfl)
  | clearedTest point =>
    refine .test rfl rfl (by rw [point]; rfl) ?_
    rw [State.setControl_control]
    split_ifs <;> rfl
  | logCleared point =>
    refine .note rfl ?_ (by rw [point]; rfl) rfl
    exact (clearanceEntries_log st _).trans (by simp)
  | reset point => exact .reset rfl rfl (by rw [point]; rfl) rfl
  | select point => exact .still rfl rfl (by rw [point]; rfl)
  | passing train point => exact .still rfl rfl (by rw [point]; rfl)
  | copy notice train time pq source left point => exact .still rfl rfl (by rw [point]; rfl)
  | note notice train time pq point =>
    refine .still rfl ?_ ?_
    · exact (clearanceEntries_log st _).trans (by cases notice <;> simp [Notice.text])
    · rw [point]
      cases notice <;> rfl
  | travel train point =>
    refine .still rfl rfl ?_
    rw [State.setControl_control, point]
    split_ifs <;> rfl
  | arrive train record point known => exact .still rfl rfl (by rw [point]; rfl)

theorem step_clearance (stepped : step p st move = some st') : ClearanceStep st move st' := by
  unfold step at stepped
  cases turn : move.thread with
  | sectionFunction source =>
    simp only [turn, Option.some.injEq] at stepped
    subst stepped
    exact sectionStep_clearance turn
  | controlCenter =>
    simp only [turn] at stepped
    exact controlStep_clearance stepped

/-! ### The protocol of overloads and clearings -/

/-- The step logs a System Overload. -/
def Declares (st st' : State) : Prop :=
  ∃ entry : Event, entry.event = "System Overload" ∧
    st'.controlLogQueue = st.controlLogQueue ++ [entry]

/-- Up to `count` steps the flag is reset only after all queues have been empty
since the declaration, and the log alternates. -/
structure ClearanceProtocol (state : ℕ → State) (count : ℕ) : Prop where
  cleared : ∀ i k, i < k → k < count → Declares (state i) (state (i + 1)) →
    (state k).clearance = true → (state (k + 1)).clearance = false →
    ∃ j, i < j ∧ j ≤ k ∧ (state j).AllEmpty
  alternates : ∀ k ≤ count, Alternates "System Overload" "Tunnel Cleared" (clearanceEntries (state k))

/-- An overload is declared between the check that found all queues empty and
the reset decided on then. -/
def StaleDeclaration (st : State) (move : Move) : Prop :=
  declares st move = true ∧ st.controlAt.phase ≠ .idle

instance (st : State) (move : Move) : Decidable (StaleDeclaration st move) :=
  inferInstanceAs (Decidable (_ ∧ _))

/-- The last overload has not been cleared yet. -/
def Unsettled (st : State) : Prop := (clearanceEntries st).length % 2 = 1

theorem unsettled_same (entries : clearanceEntries st' = clearanceEntries st) :
    Unsettled st' ↔ Unsettled st := by simp only [Unsettled, entries]

/-- Each entry of the log settles an overload or unsettles. -/
theorem unsettled_snoc (entries : clearanceEntries st' = clearanceEntries st ++ [entry]) :
    Unsettled st' ↔ ¬ Unsettled st := by
  simp only [Unsettled, entries, List.length_append, List.length_singleton]
  omega

/-- What the flag and the log are to each other, for each phase of a reset. -/
def Agrees (st : State) : Prop :=
  match st.controlAt.phase with
  | .idle | .test => st.clearance = true ↔ Unsettled st
  | .note => st.clearance = true ∧ Unsettled st
  | .reset => ¬ Unsettled st

/-- The flag and the log agree, and the log alternates. -/
structure Orderly (st : State) : Prop where
  alternates : Alternates "System Overload" "Tunnel Cleared" (clearanceEntries st)
  agrees : Agrees st

theorem Orderly.initial : Orderly .initial where
  alternates := alternates_nil
  agrees := by simp [Agrees, State.initial, ControlPoint.phase, Unsettled, clearanceEntries]

theorem Orderly.step (orderly : Orderly st) (fresh : ¬ StaleDeclaration st move)
    (stepped : ClearanceStep st move st') : Orderly st' := by
  obtain ⟨alternates, agrees⟩ := orderly
  cases stepped with
  | still flag entries phase =>
    refine ⟨entries ▸ alternates, ?_⟩
    simpa only [Agrees, unsettled_same entries, phase, flag] using agrees
  | declare declaring clear flag entries phase =>
    have idle : st.controlAt.phase = .idle := by
      by_contra pending
      exact fresh ⟨declaring, pending⟩
    have settled : ¬ Unsettled st := by simpa [Agrees, idle, clear] using agrees
    refine ⟨?_, ?_⟩
    · rw [entries]
      have even : (clearanceEntries st).length % 2 = 0 := Nat.mod_two_ne_one.mp settled
      simpa only [if_pos even] using alternates.snoc
    · simp [Agrees, phase, idle, flag, unsettled_snoc entries, settled]
  | decide empty flag entries before phase =>
    refine ⟨entries ▸ alternates, ?_⟩
    simpa only [Agrees, unsettled_same entries, phase, before, flag] using agrees
  | test flag entries before phase =>
    refine ⟨entries ▸ alternates, ?_⟩
    simp only [Agrees, before] at agrees
    cases clearing : st.clearance with
    | true => simp [Agrees, unsettled_same entries, phase, clearing, flag, agrees.mp clearing]
    | false => simpa [Agrees, unsettled_same entries, phase, clearing] using agrees
  | note flag entries before phase =>
    simp only [Agrees, before] at agrees
    refine ⟨?_, ?_⟩
    · rw [entries]
      have odd : ¬ (clearanceEntries st).length % 2 = 0 := Nat.mod_two_ne_zero.mpr agrees.2
      simpa only [if_neg odd] using alternates.snoc
    · simpa [Agrees, phase, unsettled_snoc entries] using agrees.2
  | reset flag entries before phase =>
    refine ⟨entries ▸ alternates, ?_⟩
    simp only [Agrees, before] at agrees
    simpa [Agrees, phase, flag, unsettled_same entries] using agrees

/-- Only a declaration logs a System Overload. -/
theorem Declares.declaring (logged : Declares st st') (stepped : ClearanceStep st move st') :
    declares st move = true ∧ st'.controlAt.phase = st.controlAt.phase := by
  obtain ⟨entry, name, log⟩ := logged
  have added : clearanceEntries st' = clearanceEntries st ++ ["System Overload"] := by
    simp [clearanceEntries, log, name]
  cases stepped with
  | declare declaring clear flag entries phase => exact ⟨declaring, phase⟩
  | still _ entries | decide _ _ entries | test _ entries | note _ entries | reset _ entries =>
    rw [entries] at added
    simp at added

/-- Only the end of a reset takes the flag back. -/
theorem ClearanceStep.unsets (stepped : ClearanceStep st move st') (set : st.clearance = true)
    (unset : st'.clearance = false) : st.controlAt.phase = .reset := by
  cases stepped with
  | reset _ _ before => exact before
  | declare _ _ flag => exact absurd (flag.symm.trans unset) (by decide)
  | still flag | decide _ flag | test flag | note flag =>
    exact absurd ((flag.trans set).symm.trans unset) (by decide)

/-- A reset begins with all queues empty. -/
theorem ClearanceStep.decides (stepped : ClearanceStep st move st')
    (idle : st.controlAt.phase = .idle) (pending : st'.controlAt.phase ≠ .idle) : st.AllEmpty := by
  cases stepped with
  | decide empty => exact empty
  | still _ _ phase | declare _ _ _ _ phase => exact absurd (phase.trans idle) pending
  | test _ _ before | note _ _ before | reset _ _ before =>
    exact absurd (before.symm.trans idle) (by decide)

/-- Without stale declarations the clearance protocol is kept. -/
theorem run_clearance_protocol (run : Run p count state move)
    (fresh : ∀ i < count, ¬ StaleDeclaration (state i) (move i)) : ClearanceProtocol state count := by
  have steps : ∀ i < count, ClearanceStep (state i) (move i) (state (i + 1)) :=
    fun i inside => step_clearance (run.step i inside)
  refine ⟨?_, ?_⟩
  · intro i k later inside logged set unset
    obtain ⟨declaring, same⟩ := logged.declaring (steps i (by omega))
    have idle : (state (i + 1)).controlAt.phase = .idle := by
      rw [same]
      by_contra pending
      exact fresh i (by omega) ⟨declaring, pending⟩
    have resetting := (steps k inside).unsets set unset
    -- the reset was decided on after the declaration
    obtain ⟨j, low, high, before, after⟩ :=
      exists_onset (fun j => (state j).controlAt.phase ≠ .idle) later (not_not.mpr idle)
        (by rw [resetting]; decide)
    exact ⟨j, low, high.le, (steps j (by omega)).decides (not_not.mp before) after⟩
  · intro k inside
    have orderly : ∀ k ≤ count, Orderly (state k) :=
      run.invariant (fun _ st => Orderly st) .initial fun i below _ orderly =>
        orderly.step (fresh i below) (steps i below)
    exact (orderly k inside).alternates

/-- Eleven trains depart and an overload is declared. -/
def firstOverload : List Move := List.replicate 46 (turn (.sectionFunction .A))

/-- After the overload the control center sees all the trains through the tunnel
and clears it. -/
def overloadCycle : List Move := firstOverload ++ List.replicate 114 (turn .controlCenter)

theorem run_clearance_protocol_cycle :
    clearanceEntries (during overloadCycle 160) = ["System Overload", "Tunnel Cleared"] ∧
      ClearanceProtocol (during overloadCycle) 160 := by
  have checked : checkMoves (step half) (fun st move => !decide (StaleDeclaration st move)) .initial
      overloadCycle = true := by decide +kernel
  refine ⟨by decide +kernel, run_clearance_protocol (trace_of_check checked) fun i inside => ?_⟩
  simpa using (checkMoves_sound checked i inside).2

/-- The control center finds the queues empty. Before it goes on, eleven trains
depart and an overload is declared, which it then clears. -/
def staleReset : List Move :=
  turn .controlCenter :: firstOverload ++ List.replicate 3 (turn .controlCenter)

theorem run_resets_early : ¬ ∀ p count state move, Run p count state move →
    ClearanceProtocol state count := by
  intro always
  have checked : checkMoves (step half) (fun _ _ => true) .initial staleReset = true := by decide +kernel
  have declared : Declares (during staleReset 46) (during staleReset 47) :=
    ⟨⟨"System Overload", 100, "#", "0,1,2,3,4,5,6,7,8,9,10"⟩, rfl, by decide +kernel⟩
  obtain ⟨j, after, before, empty⟩ := (always _ _ _ _ (trace_of_check checked)).cleared 46 49
    (by decide) (by decide) declared (by decide +kernel) (by decide +kernel)
  have crowded : ∀ j < 50, 46 < j → ¬ (during staleReset j).AllEmpty := by decide +kernel
  exact crowded j (by omega) after empty

/-! ### Departures -/

/-- The step puts a train at the back of a section queue. -/
def Departs (st st' : State) : Prop :=
  ∃ source train, st'.sectionQueue source = st.sectionQueue source ++ [train]

/-- No train departs while `clearance` is set. -/
def NoDepartureInClearance (state : ℕ → State) (count : ℕ) : Prop :=
  ∀ i < count, Departs (state i) (state (i + 1)) → (state i).clearance = false

/-- An overload is declared while a section thread is past its second test of
`clearance` and has not pushed its train yet. -/
def RacingDeclaration (st : State) (move : Move) : Prop :=
  declares st move = true ∧ ∃ source ∈ stations, (st.sectionAt source).creating = true

instance (st : State) (move : Move) : Decidable (RacingDeclaration st move) :=
  inferInstanceAs (Decidable (_ ∧ _))

/-- The control center moves no section thread. -/
theorem controlStep_sections (stepped : controlStep st move = some st') :
    st'.sectionAt = st.sectionAt := by
  cases controlStep_cases stepped <;> rfl

/-- A section thread moves no other. -/
theorem sectionStep_other (other : thread ≠ source) :
    (sectionStep p st source move).sectionAt thread = st.sectionAt thread := by
  unfold sectionStep
  cases st.sectionAt source with
  | loopTest => exact State.setSection_section_of_ne other
  | overloadCheck =>
    refine (State.setSection_section_of_ne other).trans ?_
    obtain ⟨-, -, declared⟩ | ⟨-, same⟩ := overloadRegion_cases st move.now move.later
    · rw [declared]
    · rw [same]
  | secondTest =>
    dsimp only
    split_ifs <;> exact State.setSection_section_of_ne other
  | create length destination => exact State.setSection_section_of_ne other

/-- A thread comes to create a train through its second test. -/
theorem sectionStep_creating (ready : ((sectionStep p st source move).sectionAt source).creating = true) :
    st.clearance = false ∧ (sectionStep p st source move).clearance = false := by
  unfold sectionStep at ready ⊢
  cases point : st.sectionAt source with
  | loopTest =>
    simp only [point, State.setSection_section_self] at ready
    split_ifs at ready <;> cases ready
  | overloadCheck => simp [point, SectionPoint.creating] at ready
  | create length destination => simp [point, SectionPoint.creating] at ready
  | secondTest =>
    simp only [point] at ready ⊢
    cases clear : st.clearance with
    | false =>
      refine ⟨rfl, ?_⟩
      simp only [Bool.false_eq_true, if_false]
      split_ifs <;> exact clear
    | true => simp [clear, SectionPoint.creating] at ready

theorem step_creating (stepped : step p st move = some st')
    (ready : (st'.sectionAt source).creating = true) :
    (st.sectionAt source).creating = true ∨ st.clearance = false ∧ st'.clearance = false := by
  unfold step at stepped
  cases turn : move.thread with
  | sectionFunction thread =>
    simp only [turn, Option.some.injEq] at stepped
    subst stepped
    by_cases own : source = thread
    · subst own
      exact Or.inr (sectionStep_creating ready)
    · rw [sectionStep_other own] at ready
      exact Or.inl ready
  | controlCenter =>
    simp only [turn] at stepped
    rw [controlStep_sections stepped] at ready
    exact Or.inl ready

/-- Threads that are about to create a train read the flag as it still is. -/
def CreatesInTime (st : State) : Prop :=
  ∀ source, (st.sectionAt source).creating = true → st.clearance = false

theorem CreatesInTime.step (inTime : CreatesInTime st) (apart : ¬ RacingDeclaration st move)
    (stepped : step p st move = some st') : CreatesInTime st' := by
  intro source ready
  cases step_creating stepped ready with
  | inr tested => exact tested.2
  | inl before =>
    have clear := inTime source before
    cases step_clearance stepped with
    | declare declaring => exact absurd ⟨declaring, source, mem_stations source, before⟩ apart
    | reset flag => exact flag
    | still flag | decide _ flag | test flag | note flag => exact flag.trans clear

/-- Only a thread that is creating a train puts one in a queue. -/
theorem Departs.creating (departs : Departs st st') (stepped : TrafficStep st st') :
    ∃ source, (st.sectionAt source).creating = true := by
  obtain ⟨source, train, longer⟩ := departs
  cases stepped with
  | depart created ready => exact ⟨created.source, by rw [ready]; rfl⟩
  | quiet queues | leave _ _ _ _ _ queues =>
    rw [queues] at longer
    simp at longer
  | enter from' taken rest front queues =>
    rw [queues] at longer
    by_cases same : source = from'
    · subst same
      rw [Function.update_self, front] at longer
      have lengths := congrArg List.length longer
      simp only [List.length_append, List.length_cons, List.length_nil] at lengths
      omega
    · rw [Function.update_of_ne same] at longer
      simp at longer

/-- Without racing declarations no train departs in clearance mode. -/
theorem run_departs_in_time (run : Run p count state move)
    (apart : ∀ i < count, ¬ RacingDeclaration (state i) (move i)) :
    NoDepartureInClearance state count := by
  have inTime : ∀ k ≤ count, CreatesInTime (state k) :=
    run.invariant (fun _ st => CreatesInTime st) (fun _ ready => nomatch ready)
      fun i below stepped inTime => inTime.step (apart i below) stepped
  intro i below departs
  obtain ⟨source, ready⟩ := departs.creating (step_traffic (run.step i below))
  exact inTime i below.le source ready

theorem run_departs_in_time_first : (during firstOverload 46).trainId = 10 ∧
    (during firstOverload 46).clearance = true ∧ NoDepartureInClearance (during firstOverload) 46 := by
  have checked : checkMoves (step half) (fun st move => !decide (RacingDeclaration st move)) .initial
      firstOverload = true := by decide +kernel
  refine ⟨by decide +kernel, by decide +kernel,
    run_departs_in_time (trace_of_check checked) fun i inside => ?_⟩
  simpa using (checkMoves_sound checked i inside).2

/-- With ten trains waiting A and B both pass their tests. A pushes its train
and declares an overload, and then B pushes its own. -/
def lateDeparture : List Move :=
  List.replicate 40 (turn (.sectionFunction .A)) ++ List.replicate 3 (turn (.sectionFunction .B)) ++
    List.replicate 6 (turn (.sectionFunction .A)) ++ [turn (.sectionFunction .B)]

theorem run_departs_late : ¬ ∀ p count state move, Run p count state move →
    NoDepartureInClearance state count := by
  intro always
  have checked : checkMoves (step half) (fun _ _ => true) .initial lateDeparture = true := by
    decide +kernel
  have departs : Departs (during lateDeparture 49) (during lateDeparture 50) :=
    ⟨.B, ⟨11, .B, .E, 100, 100, -1⟩, by decide +kernel⟩
  have clear := always _ _ _ _ (trace_of_check checked) 49 (by decide) departs
  have set : (during lateDeparture 49).clearance = true := by decide +kernel
  exact absurd (set.symm.trans clear) (by decide)

end Comp304.Metro
