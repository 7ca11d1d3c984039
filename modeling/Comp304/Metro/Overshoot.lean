import Comp304.Metro.Clearance
import Mathlib.Algebra.Order.BigOperators.Group.List

/-! How far the waiting trains can get beyond the threshold. A section thread
may act on an overload check from before the threshold was passed, and once
more if the control center then makes a reset it decided on when the queues
were empty. What each thread can still push on stale tests is bounded by where
it stands, and every push uses up some of that. -/
namespace Comp304.Metro
open Library.Traces

/-- How many trains a thread that stands here can push while more than ten
trains keep waiting, with or without a pending reset. -/
def SectionPoint.allowance (pending clearance : Bool) : SectionPoint → Nat
  | loopTest => if pending && !clearance then 1 else 0
  | overloadCheck => if pending then 1 else 0
  | secondTest => (if clearance then 0 else 1) + if pending then 1 else 0
  | create _ _ => 1 + if pending then 1 else 0

namespace State

/-- The control center has found the queues empty and has not reset the flag yet. -/
def pendingReset (st : State) : Bool := st.controlAt.phase ≠ .idle

def allowance (st : State) (source : Station) : Nat :=
  (st.sectionAt source).allowance st.pendingReset st.clearance

def allowances (st : State) : Nat := (stations.map st.allowance).sum

end State

/-- No more than ten trains wait, or those that wait and those that may still be
pushed are eighteen at most. -/
def Bounded (st : State) : Prop := st.waiting ≤ 10 ∨ st.waiting + st.allowances ≤ 18

section
variable {st st' : State} {source : Station} {point : SectionPoint}

theorem SectionPoint.allowance_le_two : point.allowance pending clearance ≤ 2 := by
  cases point <;> cases pending <;> cases clearance <;> simp [allowance]

/-- A thread has no more to push once the flag is set, -/
theorem SectionPoint.allowance_set : point.allowance pending true ≤ point.allowance pending false := by
  cases point <;> cases pending <;> simp [allowance]

/-- nor once a pending reset has been made. -/
theorem SectionPoint.allowance_reset :
    point.allowance false false ≤ point.allowance true clearance := by
  cases point <;> cases clearance <;> simp [allowance]

theorem allowances_le_eight (st : State) : st.allowances ≤ 8 :=
  List.sum_le_card_nsmul (stations.map st.allowance) 2 (List.forall_mem_map.mpr fun _ _ =>
    SectionPoint.allowance_le_two)

/-- A step that pushes no train and gives no thread more to push. -/
theorem Bounded.quiet (bounded : Bounded st) (waiting : st'.waiting ≤ st.waiting)
    (fewer : 10 < st.waiting → ∀ source, st'.allowance source ≤ st.allowance source) :
    Bounded st' := by
  by_cases crowded : 10 < st.waiting
  · have less : st'.allowances ≤ st.allowances :=
      List.sum_le_sum fun source _ => fewer crowded source
    unfold Bounded at bounded ⊢
    omega
  · exact Or.inl (by omega)

/-- The push of one train: the thread that makes it gives up some allowance, and
right after the threshold is passed nobody has more than two. -/
theorem Bounded.push (bounded : Bounded st) (source : Station) (waiting : st'.waiting = st.waiting + 1)
    (own : st'.allowance source < st.allowance source)
    (others : ∀ thread, st'.allowance thread ≤ st.allowance thread) : Bounded st' := by
  have less : st'.allowances < st.allowances :=
    List.sum_lt_sum _ _ (fun thread _ => others thread) ⟨source, mem_stations source, own⟩
  have most := allowances_le_eight st
  unfold Bounded at bounded ⊢
  omega

/-! ### The steps -/

/-- What a step of a section thread leaves to push: the flag is not taken back,
and only this thread moves. -/
theorem moved_allowance (set : st.clearance = true → st'.clearance = true)
    (control : st'.controlAt = st.controlAt)
    (sections : st'.sectionAt = Function.update st.sectionAt source point)
    (own : point.allowance st.pendingReset st'.clearance ≤ st.allowance source) (thread : Station) :
    st'.allowance thread ≤ st.allowance thread := by
  have pending : st'.pendingReset = st.pendingReset := by
    simp only [State.pendingReset, control]
  unfold State.allowance
  rw [pending, sections]
  by_cases same : thread = source
  · subst same
    rw [Function.update_self]
    exact own
  · rw [Function.update_of_ne same]
    cases clear : st'.clearance with
    | true =>
      cases st.clearance with
      | true => exact Nat.le_refl _
      | false => exact SectionPoint.allowance_set
    | false =>
      have before : st.clearance = false := by
        by_contra flagged
        exact absurd (clear.symm.trans (set (eq_true_of_ne_false flagged))) (by decide)
      rw [before]

theorem createRegion_waiting (st : State) (source : Station) (length : Nat) (destination : Station)
    (now : Nat) : (createRegion st source length destination now).waiting = st.waiting + 1 := by
  cases source <;> simp [createRegion, State.waiting] <;> omega

theorem sectionStep_bounded (bounded : Bounded st) : Bounded (sectionStep p st source move) := by
  unfold sectionStep
  cases point : st.sectionAt source with
  | loopTest =>
    refine bounded.quiet (Nat.le_refl _) fun _ => moved_allowance id rfl rfl ?_
    rw [State.allowance, point]
    cases flag : st.clearance <;> cases st.pendingReset <;>
      simp [State.setSection, SectionPoint.allowance, flag]
  | overloadCheck =>
    obtain ⟨-, -, declared⟩ | ⟨calm, same⟩ := overloadRegion_cases st move.now move.later
    · simp only [declared]
      refine bounded.quiet (Nat.le_refl _) fun _ => moved_allowance (fun _ => rfl) rfl rfl ?_
      rw [State.allowance, point]
      simp [State.setSection, SectionPoint.allowance]
    · simp only [same]
      refine bounded.quiet (Nat.le_refl _) fun crowded => moved_allowance id rfl rfl ?_
      -- with more than ten trains waiting and nothing declared, the flag is set already
      have flagged : st.clearance = true := by
        by_contra clear
        exact calm ⟨decide_eq_true crowded, eq_false_of_ne_true clear⟩
      rw [State.allowance, point]
      simp [State.setSection, SectionPoint.allowance, flagged]
  | secondTest =>
    have own : ∀ next : SectionPoint, next = .loopTest ∨ st.clearance = false →
        next.allowance st.pendingReset st.clearance ≤ st.allowance source := by
      intro next reached
      rw [State.allowance, point]
      cases next <;> cases flag : st.clearance <;> cases st.pendingReset <;>
        simp_all [SectionPoint.allowance]
    dsimp only
    split_ifs with flagged
    · exact bounded.quiet (Nat.le_refl _) fun _ => moved_allowance id rfl rfl (own _ (Or.inl rfl))
    · exact bounded.quiet (Nat.le_refl _) fun _ =>
        moved_allowance id rfl rfl (own _ (Or.inr (eq_false_of_ne_true flagged)))
    · exact bounded.quiet (Nat.le_refl _) fun _ => moved_allowance id rfl rfl (own _ (Or.inl rfl))
  | create length destination =>
    have less : SectionPoint.loopTest.allowance st.pendingReset st.clearance < st.allowance source := by
      rw [State.allowance, point]
      cases st.pendingReset <;> cases st.clearance <;> simp [SectionPoint.allowance]
    refine bounded.push source (createRegion_waiting st source length destination move.now) ?_
      (moved_allowance id rfl rfl less.le)
    simp only [State.allowance, State.setSection_section_self]
    exact less

/-- The control center adds no train to a queue. -/
theorem controlStep_waiting (stepped : controlStep st move = some st') : st'.waiting ≤ st.waiting := by
  cases controlStep_cases stepped with
  | select point train rest front =>
    have shorter : rest.length ≤ (st.sectionQueue (mostCrowded st)).length := by
      rw [front]
      exact Nat.le_succ _
    simp only [State.waiting, State.setControl]
    revert shorter
    generalize mostCrowded st = source
    intro shorter
    cases source <;> simp <;> omega
  | _ => exact Nat.le_refl _

theorem controlStep_bounded (bounded : Bounded st) (stepped : controlStep st move = some st') :
    Bounded st' := by
  have waiting := controlStep_waiting stepped
  have sections := controlStep_sections stepped
  cases controlStep_clearance stepped with
  | still flag entries phase =>
    refine bounded.quiet waiting fun _ source => ?_
    simp only [State.allowance, State.pendingReset, sections, flag, phase, Nat.le_refl]
  | declare declaring clear flag entries phase =>
    refine bounded.quiet waiting fun _ source => ?_
    simp only [State.allowance, State.pendingReset, sections, flag, phase, clear]
    exact SectionPoint.allowance_set
  | decide empty flag entries before phase =>
    have none : st.waiting = 0 := by
      simp [State.waiting, empty _ (mem_stations _)]
    exact Or.inl (by omega)
  | test flag entries before phase =>
    refine bounded.quiet waiting fun _ source => ?_
    simp only [State.allowance, State.pendingReset, sections, flag, before, phase]
    cases st.clearance <;> exact Nat.le_refl _
  | note flag entries before phase =>
    refine bounded.quiet waiting fun _ source => ?_
    simp only [State.allowance, State.pendingReset, sections, flag, before, phase]
    exact Nat.le_refl _
  | reset flag entries before phase =>
    refine bounded.quiet waiting fun _ source => ?_
    simp only [State.allowance, State.pendingReset, sections, flag, before, phase]
    exact SectionPoint.allowance_reset

theorem step_bounded (bounded : Bounded st) (stepped : step p st move = some st') : Bounded st' := by
  unfold step at stepped
  cases turn : move.thread with
  | sectionFunction source =>
    simp only [turn, Option.some.injEq] at stepped
    subst stepped
    exact sectionStep_bounded bounded
  | controlCenter =>
    simp only [turn] at stepped
    exact controlStep_bounded bounded stepped

/-- No more than eighteen trains ever wait: the ten of the threshold, and two of
each section thread. -/
theorem run_waits_bounded (run : Run p count state move) (k : ℕ) (inside : k ≤ count) :
    (state k).waiting ≤ 18 := by
  have bounded : Bounded (state k) :=
    run.invariant (fun _ st => Bounded st) (Or.inl (by decide))
      (fun _ _ stepped bounded => step_bounded bounded stepped) k inside
  unfold Bounded at bounded
  omega

/-- All four section threads in turn, this many times. -/
def abreast (steps : Nat) : List Move :=
  (List.replicate steps (stations.map fun source => turn (.sectionFunction source))).flatten

/-- The control center decides on a reset, ten trains depart, all four threads
check the queues, push, check again, and push again after the reset. -/
def twoStaleTests : List Move :=
  List.replicate 2 (turn .controlCenter) ++ List.replicate 40 (turn (.sectionFunction .A)) ++
    abreast 6 ++ [turn .controlCenter] ++ abreast 2

/-- The bound is reached. -/
theorem run_waits_eighteen : (during twoStaleTests 75).waiting = 18 ∧
    ∀ k ≤ 75, (during twoStaleTests k).waiting ≤ 18 := by
  have checked : checkMoves (step half) (fun _ _ => true) .initial twoStaleTests = true := by
    decide +kernel
  exact ⟨by decide +kernel, fun k inside => run_waits_bounded (trace_of_check checked) k inside⟩

end

end Comp304.Metro
