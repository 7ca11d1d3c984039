import Comp304.Library.Traces

/-! Bounded response. Something goes on in a run, and every move of one kind
brings its end nearer while the other moves do not put it off. Then it ends once
there have been moves enough of that kind, however they are spread. -/
namespace Comp304.Library.Traces

/-- How many of the moves from instant `first` up to instant `last` are of the kind. -/
def turns (kind : μ → Bool) (move : ℕ → μ) (first last : ℕ) : ℕ :=
  (List.range' first (last - first)).countP fun i => kind (move i)

theorem turns_self (kind : μ → Bool) (move : ℕ → μ) (k : ℕ) : turns kind move k k = 0 := by
  simp [turns]

theorem turns_step (kind : μ → Bool) (move : ℕ → μ) {first last : ℕ} (order : first < last) :
    turns kind move first last =
      (if kind (move first) then 1 else 0) + turns kind move (first + 1) last := by
  obtain ⟨more, rfl⟩ := Nat.exists_eq_add_of_lt order
  have long : first + more + 1 - first = more + 1 := by omega
  have rest : first + more + 1 - (first + 1) = more := by omega
  rw [turns, turns, long, rest, List.range'_succ, List.countP_cons, Nat.add_comm]

section
variable {step : σ → μ → Option σ} {start : σ} {state : ℕ → σ} {move : ℕ → μ}

/-- What goes on while `left` moves of the kind are still to come ends with one of
the moves that follow, if there are so many of the kind among them. -/
theorem Trace.response (kind : μ → Bool) (holding : σ → Prop) (left : σ → ℕ)
    (ended : σ → μ → σ → Prop) (trace : Trace step start count state move)
    (keeps : ∀ s m s', step s m = some s' → holding s → ended s m s' ∨
      holding s' ∧ left s' + (if kind m then 1 else 0) ≤ left s)
    (unfinished : ∀ s, holding s → 0 < left s) (order : first ≤ last) (inside : last ≤ count)
    (held : holding (state first)) (enough : left (state first) ≤ turns kind move first last) :
    ∃ j, first ≤ j ∧ j < last ∧ (∀ i, first ≤ i → i ≤ j → holding (state i)) ∧
      ended (state j) (move j) (state (j + 1)) := by
  induction order using Nat.decreasingInduction with
  | self =>
    have more := unfinished _ held
    rw [turns_self] at enough
    omega
  | of_succ first below ih =>
    have stepped := trace.step first (Nat.lt_of_lt_of_le below inside)
    obtain finish | ⟨held', fewer⟩ := keeps _ _ _ stepped held
    · refine ⟨first, Nat.le_refl _, below, fun i low high => ?_, finish⟩
      exact Nat.le_antisymm high low ▸ held
    · rw [turns_step kind move below] at enough
      obtain ⟨j, low, high, during, finish⟩ := ih held' (by omega)
      refine ⟨j, Nat.le_of_succ_le low, high, fun i start stop => ?_, finish⟩
      rcases Nat.eq_or_lt_of_le start with rfl | later
      · exact held
      · exact during i later stop

end

end Comp304.Library.Traces
