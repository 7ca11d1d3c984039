import Mathlib.Order.Lattice

/-! A loop whose length the caller cannot know runs on a budget of rounds. A
run that exhausts its budget says nothing. These laws let a proof say where a
loop ends once, for every budget: what a run that returned must have returned,
and what a run with budget enough does return. -/
namespace Comp304.Library.Budget

/-- A sequence that returns has both its parts return. -/
theorem bind_eq_ok {first : Except ε α} {next : α → Except ε β} :
    (first >>= next) = .ok result ↔ ∃ value, first = .ok value ∧ next value = .ok result := by
  cases first with
  | error stop => exact ⟨fun ran => (nomatch ran), fun ⟨_, ran, _⟩ => (nomatch ran)⟩
  | ok value =>
    constructor
    · exact fun ran => ⟨value, rfl, ran⟩
    · rintro ⟨_, same, ran⟩
      cases same
      exact ran

theorem ok_bind (value : α) (next : α → Except ε β) : (.ok value >>= next) = next value := rfl

theorem mapM_ok {f : α → Except ε β} {list : List α} (each : ∀ a ∈ list, f a = .ok (value a)) :
    list.mapM f = .ok (list.map value) := by
  induction list with
  | nil => rfl
  | cons a list ih =>
    obtain ⟨first, each⟩ := List.forall_mem_cons.mp each
    rw [List.mapM_cons, first, ok_bind, ih each, ok_bind]
    rfl

theorem mapM_returns {f : α → Except ε β} {list : List α} {values : List β}
    (ran : list.mapM f = .ok values) : ∀ a ∈ list, ∃ value, f a = .ok value := by
  induction list generalizing values with
  | nil => exact nofun
  | cons a list ih =>
    rw [List.mapM_cons] at ran
    obtain ⟨value, first, ran⟩ := bind_eq_ok.mp ran
    obtain ⟨rest, later, -⟩ := bind_eq_ok.mp ran
    exact List.forall_mem_cons.mpr ⟨⟨value, first⟩, ih later⟩

theorem forM_step (f : α → Except ε Unit) (a : α) (list : List α) :
    (a :: list).forM f = (f a >>= fun _ => list.forM f) := rfl

theorem forM_eq_ok {f : α → Except ε Unit} {list : List α} :
    list.forM f = .ok () ↔ ∀ a ∈ list, f a = .ok () := by
  induction list with
  | nil => exact ⟨fun _ => nofun, fun _ => rfl⟩
  | cons a list ih =>
    rw [forM_step, bind_eq_ok, List.forall_mem_cons]
    constructor
    · rintro ⟨⟨⟩, first, rest⟩
      exact ⟨first, ih.mp rest⟩
    · rintro ⟨first, rest⟩
      exact ⟨(), first, ih.mpr rest⟩

theorem mapError_eq_ok {run : Except ε α} {f : ε → ε'} : run.mapError f = .ok value ↔ run = .ok value := by
  cases run with
  | error stop => exact ⟨fun same => (nomatch same), fun same => (nomatch same)⟩
  | ok result => exact ⟨fun same => congrArg Except.ok (Except.ok.inj same),
      fun same => congrArg Except.ok (Except.ok.inj same)⟩

/-- A fold goes through, or there is a first element that stops it. -/
theorem foldlM_cases (f : β → α → Except ε β) (list : List α) (start : β) :
    (∃ out, list.foldlM f start = .ok out) ∨
      ∃ before a after mid stop, list = before ++ a :: after ∧ before.foldlM f start = .ok mid ∧
        f mid a = .error stop ∧ list.foldlM f start = .error stop := by
  induction list generalizing start with
  | nil => exact Or.inl ⟨start, rfl⟩
  | cons a list ih =>
    rw [List.foldlM_cons]
    cases first : f start a with
    | error stop => exact Or.inr ⟨[], a, list, start, stop, rfl, rfl, first, rfl⟩
    | ok next =>
      rw [ok_bind]
      refine (ih next).imp_right ?_
      rintro ⟨before, b, after, mid, stop, rfl, ran, failed, whole⟩
      refine ⟨a :: before, b, after, mid, stop, rfl, ?_, failed, whole⟩
      rw [List.foldlM_cons, first, ok_bind, ran]

theorem toOption_eq_some {outcome : Except ε α} : outcome.toOption = some a ↔ outcome = .ok a := by
  cases outcome <;> simp [Except.toOption]

/-- With more than `enough` rounds the run has this outcome. With fewer it has
it too, unless the budget is spent. -/
def Settles (spent : ε) (enough rounds : Nat) (run outcome : Except ε α) : Prop :=
  run = outcome ∨ (rounds ≤ enough ∧ run = .error spent)

theorem Settles.refl (run : Except ε α) : Settles spent enough rounds run run := Or.inl rfl

theorem Settles.of_eq {run outcome : Except ε α} (same : run = outcome) :
    Settles spent enough rounds run outcome := Or.inl same

/-- No rounds, no outcome. -/
theorem Settles.out_of_rounds (outcome : Except ε α) :
    Settles spent enough 0 (.error spent) outcome := Or.inr ⟨Nat.zero_le _, rfl⟩

theorem Settles.trans {first second third : Except ε α}
    (left : Settles spent enough rounds first second)
    (right : Settles spent enough rounds second third) : Settles spent enough rounds first third := by
  cases left with
  | inl same => exact same ▸ right
  | inr out => exact Or.inr out

theorem Settles.weaken {run outcome : Except ε α} (settles : Settles spent enough rounds run outcome)
    (order : enough ≤ enough') : Settles spent enough' rounds run outcome :=
  settles.imp_right fun out => ⟨Nat.le_trans out.1 order, out.2⟩

/-- One more round is one more round of budget used. -/
theorem Settles.succ {run outcome : Except ε α} (rest : Settles spent enough rounds run outcome) :
    Settles spent (enough + 1) (rounds + 1) run outcome :=
  rest.imp_right fun out => ⟨Nat.succ_le_succ out.1, out.2⟩

/-- A loop whose first round decides. -/
theorem Settles.first_round {run : Nat → Except ε α} {outcome : Except ε α}
    (none : run 0 = .error spent) (first : ∀ rounds, run (rounds + 1) = outcome) :
    ∀ rounds, Settles spent enough rounds (run rounds) outcome := by
  intro rounds
  cases rounds with
  | zero => exact none ▸ .out_of_rounds _
  | succ rounds => exact .of_eq (first rounds)

/-- A loop whose first round leaves the decision to the others. -/
theorem Settles.later_round {run rest : Nat → Except ε α} {outcome : Except ε α}
    (none : run 0 = .error spent) (first : ∀ rounds, run (rounds + 1) = rest rounds)
    (ends : ∀ rounds, Settles spent enough rounds (rest rounds) outcome) :
    ∀ rounds, Settles spent (enough + 1) rounds (run rounds) outcome := by
  intro rounds
  cases rounds with
  | zero => exact none ▸ .out_of_rounds _
  | succ rounds => exact first rounds ▸ (ends rounds).succ

/-- A sequence settles as its second part does, once the first has its value. -/
theorem Settles.bind {first : Except ε α} {next : α → Except ε β} {outcome : Except ε β}
    (head : Settles spent enough rounds first (.ok value))
    (tail : Settles spent enough rounds (next value) outcome) :
    Settles spent enough rounds (first >>= next) outcome := by
  cases head with
  | inl same =>
    rw [same, ok_bind]
    exact tail
  | inr out => exact Or.inr ⟨out.1, by rw [out.2]; rfl⟩

/-- What stops the first part stops the sequence. -/
theorem Settles.stop {first : Except ε α} {stop : ε}
    (head : Settles spent enough rounds first (.error stop)) (next : α → Except ε β) :
    Settles spent enough rounds (first >>= next) (.error stop) := by
  cases head with
  | inl same => exact .of_eq (by rw [same]; rfl)
  | inr out => exact Or.inr ⟨out.1, by rw [out.2]; rfl⟩

/-- The reasons to stop may be renamed. -/
theorem Settles.mapError {run outcome : Except ε α} (settles : Settles spent enough rounds run outcome)
    (f : ε → ε') : Settles (f spent) enough rounds (run.mapError f) (outcome.mapError f) := by
  cases settles with
  | inl same => exact .of_eq (by rw [same])
  | inr out => exact Or.inr ⟨out.1, by rw [out.2]; rfl⟩

/-- A run that returned has the outcome. -/
theorem Settles.returned {run outcome : Except ε α} (settles : Settles spent enough rounds run outcome)
    (ran : run = .ok result) : outcome = .ok result := by
  cases settles with
  | inl same => exact same.symm.trans ran
  | inr out => exact nomatch out.2.symm.trans ran

/-- A run with budget enough has the outcome. -/
theorem Settles.reached {run outcome : Except ε α} (settles : Settles spent enough rounds run outcome)
    (budget : enough < rounds) : run = outcome := by
  cases settles with
  | inl same => exact same
  | inr out => exact absurd out.1 (Nat.not_le_of_lt budget)

/-- On no budget does the run stop for this reason, if the outcome is another. -/
theorem Settles.avoids_iff {run : Nat → Except ε α} {outcome : Except ε α} {stop : ε}
    (settles : ∀ rounds, Settles spent enough rounds (run rounds) outcome) (other : stop ≠ spent) :
    (∀ rounds, run rounds ≠ .error stop) ↔ outcome ≠ .error stop := by
  constructor
  · intro avoids same
    exact avoids (enough + 1) (((settles _).reached (Nat.lt_succ_self _)).trans same)
  · intro differs rounds same
    cases settles rounds with
    | inl reached => exact differs (reached.symm.trans same)
    | inr out => exact other (Except.error.inj (same.symm.trans out.2))

/-- The run ends for another reason than its budget. -/
def Ends (spent : ε) (run : Except ε α) : Prop := run ≠ .error spent

theorem Ends.ok {spent : ε} (value : α) : Ends spent (.ok value) := nofun

/-- A sequence ends when both parts do. -/
theorem Ends.bind {first : Except ε α} {next : α → Except ε β} (head : Ends spent first)
    (tail : ∀ value, Ends spent (next value)) : Ends spent (first >>= next) := by
  cases first with
  | error stop => exact fun same => head (congrArg Except.error (Except.error.inj same))
  | ok value => exact tail value

theorem Ends.ite {choice : Prop} [Decidable choice] {first second : Except ε α}
    (yes : Ends spent first) (no : Ends spent second) :
    Ends spent (if choice then first else second) := by
  by_cases holds : choice
  · simpa only [if_pos holds] using yes
  · simpa only [if_neg holds] using no

end Comp304.Library.Budget
