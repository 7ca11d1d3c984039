import Comp304.Shell.Stages
import Mathlib.Data.List.Forall2

/-! The argument vector of a line that is one command without redirections. The
line is trimmed and split in its buffer, and the vector grows by one entry at a
time and is moved up by one in the end; what comes out is a plain split. -/
namespace Comp304.Shell
open Library Library.CString Library.Budget

/-- What a token is passed on as: without the quotes, if two equal ones are around
something, and else as it is. -/
inductive Unquoted : List Char → List Char → Prop
  | quoted (quote : q = '\'' ∨ q = '\x22') (between : text ≠ []) :
      Unquoted (q :: text ++ [q]) text
  | bare (plain : ∀ q text, q = '\'' ∨ q = '\x22' → text ≠ [] → w ≠ q :: text ++ [q]) :
      Unquoted w w

/-- A token that is an argument, or the sign for the background. -/
def Argument (w : List Char) : Prop := w ≠ ['|'] ∧ w.head? ≠ some '<' ∧ w.head? ≠ some '>'

instance (w : List Char) : Decidable (Argument w) := inferInstanceAs (Decidable (_ ∧ _))

/-- What the members of the struct are to hold for this line, with these arguments
behind the name. -/
structure SplitInto (c : Command) (line : List Char) (given : List (List Char)) : Prop where
  name : c.stage.name.text = (words splitters line).headD []
  unquoted : List.Forall₂ Unquoted ((words splitters line).tail.filter (· ≠ ['&'])) given
  args : c.stage.argv = (c.stage.name.text :: given).map some ++ [none]
  argCount : c.stage.argCount = 1 + given.length
  ended : c.stage.args[c.stage.argCount]? = some none
  background : c.background = true ↔ (trim line).getLast? = some '&'
  autoComplete : c.autoComplete = true ↔ (trim line).getLast? = some '?'

/-- The test of the parser. -/
theorem quoted_iff : 2 < w.length ∧ (w.head? = some '\x22' ∧ w.getLast? = some '\x22' ∨
      w.head? = some '\'' ∧ w.getLast? = some '\'') ↔
    ∃ q text, (q = '\'' ∨ q = '\x22') ∧ text ≠ [] ∧ w = q :: text ++ [q] := by
  constructor
  · rintro ⟨long, same⟩
    obtain ⟨q, quote, first, last⟩ : ∃ q, (q = '\'' ∨ q = '\x22') ∧ w.head? = some q ∧
        w.getLast? = some q := by
      obtain ⟨first, last⟩ | ⟨first, last⟩ := same
      · exact ⟨_, Or.inr rfl, first, last⟩
      · exact ⟨_, Or.inl rfl, first, last⟩
    obtain ⟨rest, rfl⟩ := List.head?_eq_some_iff.mp first
    cases rest using List.reverseRecOn with
    | nil => simp at long
    | append_singleton text c =>
      rw [← List.cons_append, List.getLast?_concat, Option.some.injEq] at last
      subst last
      refine ⟨c, text, quote, ?_, rfl⟩
      rintro rfl
      simp at long
  · rintro ⟨q, text, quote, between, rfl⟩
    have long := List.length_pos_iff.mpr between
    refine ⟨by simp; omega, ?_⟩
    rw [List.getLast?_concat]
    obtain rfl | rfl := quote
    · exact Or.inr ⟨rfl, rfl⟩
    · exact Or.inl ⟨rfl, rfl⟩

theorem unquoted_iff : Unquoted w arg ↔ (unquote w).text = arg := by
  rw [unquote]
  constructor
  · rintro (⟨quote, between⟩ | plain)
    · rw [if_pos (quoted_iff.mpr ⟨_, _, quote, between, rfl⟩)]
      simp
    · rw [if_neg]
      intro quotes
      obtain ⟨q, text, quote, between, same⟩ := quoted_iff.mp quotes
      exact plain q text quote between same
  · rintro rfl
    split
    · next quotes =>
      obtain ⟨q, text, quote, between, rfl⟩ := quoted_iff.mp quotes
      simpa using Unquoted.quoted quote between
    · next plain =>
      exact .bare fun q text quote between same => plain
        (quoted_iff.mpr ⟨q, text, quote, between, same⟩)

theorem Argument.operator (argument : Argument w) : operator w = none := by
  obtain ⟨-, input, output⟩ := argument
  cases w with
  | nil => rfl
  | cons c w =>
    simp only [List.head?_cons, ne_eq, Option.some.injEq] at input output
    unfold Shell.operator
    split
    · next same => exact absurd (List.cons.inj same).1 input
    · next same => exact absurd (List.cons.inj same).1 output
    · next same => exact absurd (List.cons.inj same).1 output
    · rfl

/-- The progress over tokens that are all arguments. -/
theorem take_arguments (ws : List (List Char)) (command : Contents)
    (plain : ∀ w ∈ ws, Argument w) (trimmed : ∀ w ∈ ws, trim w = w ∧ w ≠ []) :
    ws.foldlM Progress.take (.start command) = .ok (progressOf command (ws.map .argument)) := by
  have spelled : (ws.map Item.argument).flatMap Item.words = ws := by
    rw [List.flatMap_map]
    exact List.map_eq_flatMap.symm.trans (List.map_id ws)
  have taken : (∀ item ∈ ws.map Item.argument, item.Plain) → _ → _ →
      ((ws.map Item.argument).flatMap Item.words).foldlM Progress.take (progressOf command []) =
        .ok (progressOf command ([] ++ ws.map .argument)) := take_items
  rw [spelled, progressOf_nil, List.nil_append] at taken
  apply taken
  · intro item member
    obtain ⟨w, listed, rfl⟩ := List.mem_map.mp member
    exact (plain w listed).operator
  · exact trimmed
  · rw [kinds_map]
    exact Nat.zero_le 3

/-- On a line of one command `parse_command` computes the plain split. -/
theorem parse_splits (fresh : Nat → Contents) (after line : List Char) (whole : nul ∉ line)
    (short : ∀ w ∈ words splitters line, w.length ≤ 1023)
    (plain : ∀ w ∈ (words splitters line).tail, Argument w) :
    ∃ c given, parseLine fresh zeroed line after = .ok c ∧ SplitInto c line given := by
  have taken := take_arguments (words splitters line).tail zeroed plain fun w member =>
    trim_of_mem whole (List.mem_of_mem_tail member)
  have passed := passed_map (words splitters line).tail
  refine ⟨⟨(trim line).getLast? = some '&', (trim line).getLast? = some '?',
    (progressOf zeroed ((words splitters line).tail.map .argument)).staged
      (stored ((words splitters line).headD [])), .inl 0⟩,
    arguments ((words splitters line).tail.map .argument), ?_, ?_⟩
  · rw [parseLine_words fresh zeroed after whole (fun member => (plain _ member).1 rfl) short, taken,
      ok_bind, if_pos (show (progressOf zeroed _).redirectIndex = none from rfl)]
    rfl
  · refine ⟨rfl, ?_, argv_staged .., ?_, ?_, decide_eq_true_iff, decide_eq_true_iff⟩
    · rw [arguments, passed, List.map_map, List.forall₂_map_right_iff]
      exact List.forall₂_same.mpr fun w _ => unquoted_iff.mpr rfl
    · simp [Progress.staged, progressOf, arguments, Nat.add_comm]
    · simp [Progress.staged, progressOf]

/-- A line with white space on all sides, quotes, and a sign for the background. -/
theorem parse_splits_quoted :
    ∃ c given, parseLine (fun _ => zeroed) zeroed "\t echo 'a' \" & ".toList [] = .ok c ∧
      SplitInto c "\t echo 'a' \" & ".toList given :=
  parse_splits (fun _ => zeroed) [] "\t echo 'a' \" & ".toList (by decide) (by decide) (by decide)

example : (parseLine (fun _ => zeroed) zeroed "\t echo 'a' \" & ".toList []).map (·.stage.argv) =
    .ok [some "echo".toList, some ['a'], some ['\x22'], none] := rfl

end Comp304.Shell
