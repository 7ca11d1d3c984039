import Mathlib.Data.List.Nodup
import Mathlib.Logic.Function.Basic

/-! Items that arrive in lanes and are taken from the fronts of the lanes. One
equation for each lane says that nothing is lost, doubled or overtaken: what
arrived there is what was taken from there followed by what still waits. -/
namespace Comp304.Library.Lanes

/-- `arrived` and `taken` list the items in the order in which this happened to
them, over all lanes. -/
def Fifo [DecidableEq ι] (origin : α → ι) (arrived taken : List α) (lane : ι → List α) : Prop :=
  ∀ i, arrived.filter (origin · = i) = taken.filter (origin · = i) ++ lane i

variable [DecidableEq ι] {origin : α → ι} {arrived taken : List α} {lane : ι → List α}

theorem Fifo.empty : Fifo origin [] [] fun _ => [] := fun _ => rfl

/-- An item arrives at the back of its lane. -/
theorem Fifo.arrive (fifo : Fifo origin arrived taken lane) (x : α) :
    Fifo origin (arrived ++ [x]) taken
      (Function.update lane (origin x) (lane (origin x) ++ [x])) := by
  intro i
  rw [List.filter_append, fifo i, List.append_assoc]
  by_cases own : i = origin x
  · subst own
    simp
  · have other : ¬ origin x = i := fun same => own same.symm
    simp [Function.update_of_ne own, other]

theorem Fifo.origin_of_waiting (fifo : Fifo origin arrived taken lane) (waits : x ∈ lane i) :
    origin x = i := by
  have member : x ∈ arrived.filter (origin · = i) := by
    rw [fifo i]
    exact List.mem_append_right _ waits
  exact of_decide_eq_true (List.mem_filter.mp member).2

/-- The front of a lane is taken. -/
theorem Fifo.take (fifo : Fifo origin arrived taken lane) (front : lane i = x :: rest) :
    Fifo origin arrived (taken ++ [x]) (Function.update lane i rest) := by
  have own : origin x = i := fifo.origin_of_waiting (i := i) (by rw [front]; exact List.mem_cons_self)
  intro j
  rw [fifo j, List.filter_append, List.append_assoc]
  by_cases same : j = i
  · subst same
    simp [front, own]
  · have other : ¬ origin x = j := fun equal => same (equal.symm.trans own)
    simp [Function.update_of_ne same, other]

/-- An arrived item was taken or still waits in its own lane. -/
theorem Fifo.mem_arrived (fifo : Fifo origin arrived taken lane) :
    x ∈ arrived ↔ x ∈ taken ∨ x ∈ lane (origin x) := by
  have here := congrArg (x ∈ ·) (fifo (origin x))
  simpa using here

theorem Fifo.waiting_sublist (fifo : Fifo origin arrived taken lane) (i : ι) :
    (lane i).Sublist arrived := by
  have back : (lane i).Sublist (arrived.filter (origin · = i)) := by
    rw [fifo i]
    exact List.sublist_append_right _ _
  exact back.trans List.filter_sublist

theorem Fifo.taken_sublist (fifo : Fifo origin arrived taken lane) (i : ι) :
    (taken.filter (origin · = i)).Sublist arrived := by
  have front : (taken.filter (origin · = i)).Sublist (arrived.filter (origin · = i)) := by
    rw [fifo i]
    exact List.sublist_append_left _ _
  exact front.trans List.filter_sublist

/-- Nothing is taken twice. -/
theorem Fifo.taken_nodup [DecidableEq α] (fifo : Fifo origin arrived taken lane)
    (distinct : arrived.Nodup) : taken.Nodup := by
  apply List.nodup_iff_count_le_one.mpr
  intro x
  have once := List.nodup_iff_count_le_one.mp ((fifo.taken_sublist (origin x)).nodup distinct) x
  rwa [List.count_filter (p := fun y => decide (origin y = origin x)) (decide_eq_true rfl)] at once

/-- What holds between each arrival and the later ones holds between each taken
item and the ones taken later, if they have one origin. -/
theorem Fifo.taken_ordered (fifo : Fifo origin arrived taken lane) {R : α → α → Prop}
    (ordered : arrived.Pairwise R) : taken.Pairwise fun x y => origin x = origin y → R x y := by
  apply List.pairwise_iff_forall_sublist.mpr
  intro x y pair same
  have kept := List.pairwise_filter.mp (ordered.sublist (fifo.taken_sublist (origin x)))
  exact List.pairwise_iff_forall_sublist.mp kept pair (decide_eq_true rfl)
    (decide_eq_true same.symm)

/-- What still waits was not taken. -/
theorem Fifo.waiting_not_taken (fifo : Fifo origin arrived taken lane) (distinct : arrived.Nodup)
    (waits : x ∈ lane i) : x ∉ taken := by
  intro gone
  have own := fifo.origin_of_waiting waits
  have apart := distinct.filter (origin · = i)
  rw [fifo i] at apart
  exact List.disjoint_of_nodup_append apart
    (List.mem_filter.mpr ⟨gone, decide_eq_true own⟩) waits

end Comp304.Library.Lanes
