import Comp304.Metro.Conservation

/-! What the control center takes. Between its test for waiting trains and the
region that takes one the section threads go on, but they only add trains, so
what it saw not to be empty is still not empty. -/
namespace Comp304.Metro
open Library.Traces

/-! ### The queue that is chosen -/

/-- No queue is longer than the one a train is taken from. -/
theorem mostCrowded_longest (st : State) (source : Station) :
    (st.sectionQueue source).length ≤ (st.sectionQueue (mostCrowded st)).length := by
  unfold mostCrowded
  dsimp only
  split_ifs <;> cases source <;> omega

/-- The stations before it in the order A, B, E, F have shorter queues. -/
theorem mostCrowded_first (st : State) (source : Station)
    (earlier : stations.idxOf source < stations.idxOf (mostCrowded st)) :
    (st.sectionQueue source).length < (st.sectionQueue (mostCrowded st)).length := by
  revert earlier
  unfold mostCrowded
  dsimp only
  split_ifs <;> cases source <;> simp [stations] <;> omega

theorem mostCrowded_nonempty {st : State} (crowded : ¬ st.AllEmpty) : st.sectionQueue (mostCrowded st) ≠ [] := by
  intro empty
  apply crowded
  intro source _
  have short := mostCrowded_longest st source
  rw [empty] at short
  exact List.eq_nil_of_length_eq_zero (Nat.le_zero.mp short)

/-! ### The queue is not empty -/

/-- A control center that is about to take a train has one to take. -/
def HasTrain (st : State) : Prop := st.controlAt = .select → ¬ st.AllEmpty

/-- A section thread empties no queue. -/
theorem sectionStep_nonempty (crowded : ¬ st.AllEmpty) : ¬ (sectionStep p st source move).AllEmpty := by
  intro empty
  have control := sectionStep_control p st source move
  cases sectionStep_traffic p st source move with
  | quiet queues =>
    apply crowded
    simpa only [State.AllEmpty, queues] using empty
  | depart train _ _ _ queues =>
    have filled := empty train.source (mem_stations train.source)
    simp [queues] at filled
  | enter _ _ _ _ _ _ _ vacant tunnel =>
    simp only [State.inTunnel, control] at vacant tunnel
    exact absurd (vacant.symm.trans tunnel) (by simp)
  | leave _ _ _ inside _ _ _ _ tunnel =>
    simp only [State.inTunnel, control] at inside tunnel
    exact absurd (tunnel.symm.trans inside) (by simp)

theorem HasTrain.control (stepped : controlStep st move = some st') : HasTrain st' := by
  intro selecting
  cases controlStep_cases stepped with
  | emptyCheck point =>
    intro empty
    have kept : st.AllEmpty := empty
    rw [State.setControl_control, if_pos kept] at selecting
    cases selecting
  | clearedTest | travel =>
    rw [State.setControl_control] at selecting
    split_ifs at selecting
  | note notice => cases notice <;> cases selecting
  | logCleared | reset | select | passing | copy | arrive => cases selecting

theorem HasTrain.step (hasTrain : HasTrain st) (stepped : step p st move = some st') :
    HasTrain st' := by
  unfold Metro.step at stepped
  cases turn : move.thread with
  | sectionFunction source =>
    simp only [turn, Option.some.injEq] at stepped
    subst stepped
    intro selecting
    rw [sectionStep_control] at selecting
    exact sectionStep_nonempty (hasTrain selecting)
  | controlCenter =>
    simp only [turn] at stepped
    exact .control stepped

theorem run_hasTrain (run : Run p count state move) : ∀ k ≤ count, HasTrain (state k) := by
  apply run.invariant fun _ st => HasTrain st
  · exact fun selecting => nomatch selecting
  · exact fun _ _ stepped hasTrain => hasTrain.step stepped

/-- In every state of every run each thread can make its next step: a queue the
control center takes from is not empty, and a train it sees out is recorded. -/
theorem run_unstuck (run : Run p count state move) (k : ℕ) (inside : k ≤ count) (next : Move) :
    (step p (state k) next).isSome = true := by
  have hasTrain := run_hasTrain run k inside
  obtain ⟨departed, entered, account⟩ := run_account run k inside
  unfold step
  cases next.thread with
  | sectionFunction source => rfl
  | controlCenter =>
    unfold controlStep
    cases point : (state k).controlAt with
    | select =>
      have front := mostCrowded_nonempty (hasTrain point)
      obtain ⟨train, rest, found⟩ := List.exists_cons_of_ne_nil front
      simp [selectRegion, found]
    | arrive train =>
      have entered := account.tunnel train (by simp [State.inTunnel, point, ControlPoint.train])
      obtain ⟨record, known, -⟩ := account.records train (account.mem_departed entered)
      simp [arriveRegion, known]
    | copying notice train time pq left => cases left <;> rfl
    | emptyCheck | clearedTest | logCleared | reset | passing train | travel train => rfl

/-! ### The train that is taken -/

/-- The control center takes the train from the front of this queue. No queue is
longer, and those looked at before it are shorter. -/
structure Takes (st st' : State) (source : Station) (train : Train) : Prop where
  front : (st.sectionQueue source).head? = some train
  popped : st'.sectionQueue = Function.update st.sectionQueue source (st.sectionQueue source).tail
  longest : ∀ other, (st.sectionQueue other).length ≤ (st.sectionQueue source).length
  first : ∀ other, stations.idxOf other < stations.idxOf source →
    (st.sectionQueue other).length < (st.sectionQueue source).length
  passing : st'.controlAt = .passing train

theorem takes_front (front : st.sectionQueue (mostCrowded st) = train :: rest) :
    Takes st ({ st with
      sectionQueue := Function.update st.sectionQueue (mostCrowded st) rest }.setControl (.passing train))
      (mostCrowded st) train where
  front := by rw [front, List.head?_cons]
  popped := by rw [front, List.tail_cons]; rfl
  longest := mostCrowded_longest st
  first := mostCrowded_first st
  passing := rfl

theorem HasTrain.selects (hasTrain : HasTrain st) (selecting : st.controlAt = .select) :
    ∃ source train st', selectRegion st = some st' ∧ Takes st st' source train := by
  obtain ⟨train, rest, front⟩ := List.exists_cons_of_ne_nil (mostCrowded_nonempty (hasTrain selecting))
  refine ⟨mostCrowded st, train, _, ?_, takes_front front⟩
  simp only [selectRegion, front]

/-- The only step of the control center that changes a queue takes a train. -/
theorem controlStep_takes (stepped : controlStep st move = some st')
    (changed : st'.sectionQueue ≠ st.sectionQueue) : ∃ source train, Takes st st' source train := by
  cases controlStep_cases stepped with
  | select _ train rest front => exact ⟨mostCrowded st, train, takes_front front⟩
  | emptyCheck | clearedTest | logCleared | reset | passing | copy | note | travel | arrive =>
    exact absurd rfl changed

/-- In every run the region that takes a train finds one, and whenever the
control center changes a queue it takes the front of the first of the longest. -/
theorem run_takes_longest (run : Run p count state move) :
    (∀ k ≤ count, (state k).controlAt = .select →
      ∃ source train st', selectRegion (state k) = some st' ∧ Takes (state k) st' source train) ∧
    ∀ k < count, (move k).thread = .controlCenter →
      (state (k + 1)).sectionQueue ≠ (state k).sectionQueue →
        ∃ source train, Takes (state k) (state (k + 1)) source train := by
  constructor
  · intro k inside selecting
    exact (run_hasTrain run k inside).selects selecting
  · intro k inside control changed
    have stepped := run.step k inside
    simp only [step, control] at stepped
    exact controlStep_takes stepped changed

/-- The step in which the train of the one trip is taken. -/
theorem run_takes_longest_one_trip :
    ∃ source train, Takes (during oneTrip 5) (during oneTrip 6) source train := by
  have checked : checkMoves (step half) (fun _ _ => true) .initial oneTrip = true := by decide +kernel
  have emptied : (during oneTrip 6).sectionQueue .A ≠ (during oneTrip 5).sectionQueue .A := by
    decide +kernel
  apply (run_takes_longest (trace_of_check checked)).2 5 (by decide) rfl
  exact fun same => emptied (congrFun same .A)

end Comp304.Metro
