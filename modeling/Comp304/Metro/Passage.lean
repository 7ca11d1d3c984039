import Comp304.Library.Response
import Comp304.Metro.Journal
import Comp304.Metro.Logs

/-! The passage of a train takes a bounded number of steps of the control center,
however the other threads are scheduled: it is announced, it may break down once,
and its arrival is recorded. Which trains wait, and how many, makes no difference
to the train in the tunnel. -/
namespace Comp304.Metro
open Library.Lanes Library.Traces

/-- The most steps the control center makes before the train it has is through.
To copy the four queues takes four, and to log a notice one more. -/
def ControlPoint.stepsLeft : ControlPoint → ℕ
  | passing _ => 13
  | copying .tunnelPassing _ _ _ left => left.length + 8
  | travel _ => 7
  | copying .breakdown _ _ _ left => left.length + 2
  | arrive _ => 1
  | _ => 0

/-- The move is the control center's. -/
def ofControl (move : Move) : Bool := move.thread = .controlCenter

/-- The control center notes the arrival and has no train any more. -/
def Arrives (train : Train) (st : State) (move : Move) (st' : State) : Prop :=
  st.controlAt = .arrive train ∧ st'.inTunnel = none ∧
    ∃ record, st.trainsHashMap train.id = some record ∧
      st'.trainsHashMap train.id = some { record with arrivalTime := move.now + 1 }

section
variable {p : Draw} {st st' : State} {train other : Train} {source : Station}

theorem stepsLeft_pos (inside : st.inTunnel = some train) : 0 < st.controlAt.stepsLeft := by
  simp only [State.inTunnel] at inside
  cases point : st.controlAt with
  | emptyCheck | clearedTest | logCleared | reset | select => simp [point, ControlPoint.train] at inside
  | passing | travel | arrive => simp [ControlPoint.stepsLeft]
  | copying notice => cases notice <;> simp [ControlPoint.stepsLeft]

/-- A step of the control center brings the train nearer to its arrival. -/
theorem control_advances (stepped : controlStep st move = some st')
    (inside : st.inTunnel = some train) :
    Arrives train st move st' ∨
      st'.inTunnel = some train ∧ st'.controlAt.stepsLeft + 1 ≤ st.controlAt.stepsLeft := by
  simp only [State.inTunnel] at inside ⊢
  cases controlStep_cases stepped with
  | emptyCheck point | clearedTest point | logCleared point | reset point | select point =>
    rw [point] at inside
    cases inside
  | passing other point =>
    rw [point] at inside ⊢
    exact Or.inr ⟨inside, by simp [ControlPoint.stepsLeft, stations]⟩
  | copy notice other time pq source left point =>
    rw [point] at inside ⊢
    refine Or.inr ⟨inside, ?_⟩
    cases notice <;> simp only [State.setControl_control, ControlPoint.stepsLeft, List.length_cons] <;>
      omega
  | note notice other time pq point =>
    rw [point] at inside ⊢
    refine Or.inr ⟨?_, ?_⟩
    · cases notice <;> exact inside
    · cases notice <;> simp [ControlPoint.stepsLeft, Notice.next]
  | travel other point =>
    rw [point] at inside ⊢
    rw [State.setControl_control]
    refine Or.inr ⟨?_, ?_⟩
    · split_ifs <;> exact inside
    · split_ifs <;> simp [ControlPoint.stepsLeft, stations]
  | arrive other record point known =>
    rw [point] at inside
    cases inside
    exact Or.inl ⟨point, rfl, record, known, Function.update_self ..⟩

/-- And a step of a section thread leaves it where it is. -/
theorem step_advances (stepped : step p st move = some st') (inside : st.inTunnel = some train) :
    Arrives train st move st' ∨ st'.inTunnel = some train ∧
      st'.controlAt.stepsLeft + (if ofControl move then 1 else 0) ≤ st.controlAt.stepsLeft := by
  unfold step at stepped
  cases turn : move.thread with
  | sectionFunction source =>
    simp only [turn, Option.some.injEq] at stepped
    have same : st'.controlAt = st.controlAt := stepped ▸ sectionStep_control p st source move
    refine Or.inr ⟨by rw [State.inTunnel, same]; exact inside, ?_⟩
    simp [same, ofControl, turn]
  | controlCenter =>
    simp only [turn] at stepped
    simpa [ofControl, turn] using control_advances stepped inside

/-- No more than the four queues are ever left to copy. -/
theorem control_stepsLeft (stepped : controlStep st move = some st')
    (few : st.controlAt.stepsLeft ≤ 13) : st'.controlAt.stepsLeft ≤ 13 := by
  cases inside : st.inTunnel with
  | some train =>
    obtain ⟨-, vacant, -⟩ | ⟨-, fewer⟩ := control_advances stepped inside
    · simp only [State.inTunnel] at vacant
      cases point : st'.controlAt with
      | emptyCheck | clearedTest | logCleared | reset | select => simp [ControlPoint.stepsLeft]
      | passing | travel | arrive | copying => simp [point, ControlPoint.train] at vacant
    · omega
  | none =>
    simp only [State.inTunnel] at inside
    cases controlStep_cases stepped with
    | emptyCheck | clearedTest =>
      rw [State.setControl_control]
      split_ifs <;> simp [ControlPoint.stepsLeft]
    | logCleared | reset | select => simp [ControlPoint.stepsLeft]
    | passing other point | copy _ other _ _ _ _ point | note _ other _ _ point | travel other point
    | arrive other _ point _ =>
      rw [point] at inside
      cases inside

theorem run_stepsLeft (run : Run p count state move) :
    ∀ k ≤ count, (state k).controlAt.stepsLeft ≤ 13 := by
  refine run.invariant (fun _ st => st.controlAt.stepsLeft ≤ 13) (Nat.zero_le _)
    fun i below stepped few => ?_
  unfold step at stepped
  cases turn : (move i).thread with
  | sectionFunction source =>
    simp only [turn, Option.some.injEq] at stepped
    rw [← stepped, sectionStep_control]
    exact few
  | controlCenter =>
    simp only [turn] at stepped
    exact control_stepsLeft stepped few

/-! ### What is on record -/

/-- The train still waits, or it is in the tunnel. -/
def State.Under (st : State) (train : Train) : Prop :=
  st.inTunnel = some train ∨ ∃ source, train ∈ st.sectionQueue source

theorem Account.under_departed (account : Account state k st departed entered)
    (under : st.Under train) : train ∈ departed := by
  obtain inside | ⟨source, waits⟩ := under
  · exact account.mem_departed (account.tunnel train inside)
  · have own := account.fifo.origin_of_waiting waits
    exact account.fifo.mem_arrived.mpr (Or.inr (own ▸ waits))

/-- The train that leaves the tunnel is not one of those that wait. -/
theorem Account.waiting_ne (account : Account state k st departed entered)
    (inside : st.inTunnel = some train) (waits : other ∈ st.sectionQueue source) :
    other.id ≠ train.id := by
  intro same
  have gone := account.tunnel train inside
  have same := account.numbered.eq_of_id (account.under_departed (Or.inr ⟨source, waits⟩))
    (account.mem_departed gone) same
  exact account.fifo.waiting_not_taken account.numbered.distinct waits (same ▸ gone)

/-- Until it is through, a train is on record as it departed. -/
theorem run_on_record (run : Run p count state move) : ∀ k ≤ count, ∀ train,
    (state k).Under train → (state k).trainsHashMap train.id = some train := by
  refine run.invariant (fun _ st => ∀ train, st.Under train → st.trainsHashMap train.id = some train)
    ?_ fun i below stepped recorded train under => ?_
  · rintro train (inside | ⟨source, waits⟩)
    · cases inside
    · cases waits
  obtain ⟨departed, entered, account⟩ := run_account run i (Nat.le_of_lt below)
  cases step_traffic stepped with
  | quiet queues records last tunnel named =>
    rw [records]
    exact recorded train (by rwa [State.Under, queues, tunnel] at under)
  | depart new ready fresh away queues records last tunnel named =>
    rw [State.Under, queues, tunnel] at under
    have before : (state i).Under train ∨ train = new := by
      obtain inside | ⟨source, waits⟩ := under
      · exact Or.inl (Or.inl inside)
      · by_cases own : source = new.source
        · rw [own, Function.update_self] at waits
          obtain waits | same := List.mem_append.mp waits
          · exact Or.inl (Or.inr ⟨_, waits⟩)
          · exact Or.inr (List.mem_singleton.mp same)
        · rw [Function.update_of_ne own] at waits
          exact Or.inl (Or.inr ⟨source, waits⟩)
    rw [records]
    obtain before | rfl := before
    · have old := (account.known_iff.mp ⟨train, account.under_departed before, rfl⟩).2
      rw [Function.update_of_ne (by omega)]
      exact recorded train before
    · exact Function.update_self ..
  | enter source new rest front queues records last vacant tunnel named =>
    rw [records]
    refine recorded train ?_
    rw [State.Under, queues, tunnel] at under
    obtain inside | ⟨other, waits⟩ := under
    · cases inside
      exact Or.inr ⟨source, by simp [front]⟩
    · by_cases own : other = source
      · subst own
        rw [Function.update_self] at waits
        exact Or.inr ⟨other, by simp [front, waits]⟩
      · rw [Function.update_of_ne own] at waits
        exact Or.inr ⟨other, waits⟩
  | leave gone record now inside known queues records last tunnel named =>
    rw [State.Under, queues, tunnel] at under
    obtain inside' | ⟨source, waits⟩ := under
    · cases inside'
    · rw [records, Function.update_of_ne (account.waiting_ne inside waits)]
      exact recorded train (Or.inr ⟨source, waits⟩)

/-- A train in the tunnel is out of it after at most thirteen more steps of the
control center, whatever else happens in between. By then its passing is in the
control log, and the arrival is all that has changed on its record. -/
theorem run_passes_through (run : Run p count state move) (order : first ≤ last)
    (inside : last ≤ count) (enters : (state first).inTunnel = some train)
    (enough : 13 ≤ turns ofControl move first last) :
    ∃ j, first ≤ j ∧ j < last ∧ (∀ i, first ≤ i → i ≤ j → (state i).inTunnel = some train) ∧
      (state (j + 1)).inTunnel = none ∧
      toString train.id ∈ (state j).passings.map Event.trainId ∧
      (state (j + 1)).trainsHashMap train.id =
        some { train with arrivalTime := (move j).now + 1 } := by
  have few := run_stepsLeft run first (by omega)
  obtain ⟨j, low, high, during, point, vacant, record, known, arrived⟩ :=
    run.response ofControl (fun st => st.inTunnel = some train) (fun st => st.controlAt.stepsLeft)
      (Arrives train) (fun s m s' stepped => step_advances stepped) (fun s => stepsLeft_pos) order
      inside enters (by omega)
  have still := during j low (Nat.le_refl j)
  obtain ⟨departed, entered, account⟩ := run_account run j (by omega)
  have gone := account.tunnel train still
  refine ⟨j, low, high, during, vacant, ?_, ?_⟩
  · refine (account.passed_iff (account.mem_departed gone)).mpr ⟨gone, ?_⟩
    rw [point]
    exact List.not_mem_nil
  · have departure := run_on_record run j (by omega) train (Or.inl still)
    cases Option.some.inj (known.symm.trans departure)
    exact arrived

/-- The train of the trip, from the moment it is taken. -/
theorem run_passes_through_long_trip : ∃ j, 6 ≤ j ∧ j < 19 ∧
    (∀ i, 6 ≤ i → i ≤ j → (during brokenTrip i).inTunnel = some ⟨0, .A, .E, 100, 100, -1⟩) ∧
      (during brokenTrip (j + 1)).inTunnel = none ∧
      toString (0 : Int) ∈ (during brokenTrip j).passings.map Event.trainId ∧
      (during brokenTrip (j + 1)).trainsHashMap 0 = some ⟨0, .A, .E, 100, 100, 101⟩ := by
  have checked : checkMoves (step half) (fun _ _ => true) .initial brokenTrip = true := by
    decide +kernel
  have taken : (during brokenTrip 6).inTunnel = some ⟨0, .A, .E, 100, 100, -1⟩ := by decide +kernel
  have enough : 13 ≤ turns ofControl (moveAt brokenTrip) 6 19 := by decide +kernel
  obtain ⟨j, low, high, during, vacant, passing, arrived⟩ :=
    run_passes_through (trace_of_check checked) (by decide) (by decide) taken enough
  have clock : ∀ j < 19, (moveAt brokenTrip j).now = 100 := by decide +kernel
  rw [clock j high] at arrived
  exact ⟨j, low, high, during, vacant, passing, arrived⟩

end

end Comp304.Metro
