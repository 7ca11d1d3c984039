import Comp304.Library.Budget
import Comp304.Library.Edits
import Comp304.Shell.Editor

/-! The text that is typed in one prompt. The letters of the arrow keys are ignored
or recall a line also when they are typed as text, so what is handed on is what was
typed only if all of it up to the last of them has been deleted again. -/
namespace Comp304.Shell
open Library.CString Library.Budget Library.Edits

/-- A character from 32 to 126. -/
abbrev Printable := {c : Char // ' ' ≤ c ∧ c ≤ '~'}

/-- The arrows other than up. -/
inductive Arrow where
  | down
  | right
  | left
  deriving DecidableEq

def Arrow.letter : Arrow → Char
  | .down => 'B'
  | .right => 'C'
  | .left => 'D'

inductive EditKey where
  | char (c : Printable)
  | backspace
  | arrow (a : Arrow)
  deriving DecidableEq

/-- What `getchar` returns for the key. -/
def EditKey.bytes : EditKey → List Char
  | .char c => [c.val]
  | .backspace => ['\x7f']
  | .arrow a => ['\x1b', '[', a.letter]

/-- What the key is to do. -/
def EditKey.edit : EditKey → Edit Char
  | .char c => .put c.val
  | .backspace => .rub
  | .arrow _ => .stay

/-- The line that is typed. -/
def typed (keys : List EditKey) : List Char := run EditKey.edit [] keys

/-- The keys of one prompt up to Enter, for which there is room at any time. -/
structure Typing where
  keys : List EditKey
  within : ∀ front, front <+: keys → (typed front).length ≤ 4094

/-- The keys that `getchar` returns with Enter lead to a line with this text. -/
def Hands (e : Editor) (keys : List EditKey) (text : List Char) : Prop :=
  ∃ line oldbuf, e.type (keys.flatMap EditKey.bytes ++ ['\n']) = .ok (.handed line oldbuf, []) ∧
    line.text = text

/-- What is typed is handed on, whatever was entered before and is in `buf`. -/
def Typing.Handed (t : Typing) : Prop :=
  ∀ garbage oldbuf, Hands (.start garbage oldbuf) t.keys (typed t.keys)

/-! ### When it is -/

/-- A letter that is taken for a part of an arrow key. -/
def EditKey.Lost : EditKey → Prop
  | .char c => c.val ∈ ['[', 'A', 'B', 'C', 'D']
  | _ => False

instance : DecidablePred EditKey.Lost
  | .char _ => inferInstanceAs (Decidable (_ ∈ _))
  | .backspace => inferInstanceAs (Decidable False)
  | .arrow _ => inferInstanceAs (Decidable False)

/-- What the key does to the line, unless it recalls one. -/
def EditKey.effect (k : EditKey) : Edit Char := if k.Lost then .stay else k.edit

/-- The letter that recalls a line. -/
def up : EditKey := .char ⟨'A', by decide⟩

/-- How long a line of `n` characters gets, if no character fills the array. -/
def lengthAfter : Nat → List EditKey → Option Nat
  | n, [] => some n
  | n, k :: keys =>
    match k.effect with
    | .put _ => if n < 4094 then lengthAfter (n + 1) keys else none
    | .rub => lengthAfter (n - 1) keys
    | .stay => lengthAfter n keys

/-- If a line is recalled, nothing is stored before the last time. Every second recall
gives an empty line, and any other line is deleted by what follows, even if it
fills the array. -/
def Forgotten (keys : List EditKey) : Prop :=
  up ∉ keys ∨ ∃ before after, keys = before ++ up :: after ∧ up ∉ after ∧
    (∀ k ∈ before, ∀ c, k.effect ≠ .put c) ∧
      (before.count up % 2 = 1 ∨ lengthAfter 4095 after = some 0)

/-- Everything up to the last lost letter has been deleted again. -/
def Typing.Recovers (t : Typing) : Prop :=
  ∃ before after, t.keys = before ++ after ∧ typed before = [] ∧ Forgotten before ∧
    ∀ k ∈ after, ¬ k.Lost

/-! ### Single keys -/

section
variable {e e' : Editor} {c : Char} {k : EditKey}

theorem type_again (again : e.key c = .ok (.again e')) (rest : List Char) :
    e.type (c :: rest) = e'.type rest := by
  rw [Editor.type, Editor.press, again]
  rfl

theorem type_handed (leave : e.key c = .ok (.leave e')) (finish : e'.finish = .ok (line, oldbuf))
    (rest : List Char) : e.type (c :: rest) = .ok (.handed line oldbuf, rest) := by
  simp only [Editor.type, Editor.press, leave, finish, ok_bind]
  rfl

theorem type_leave (leave : e.key c = .ok (.leave e')) (more : rest ≠ []) :
    e.type (c :: rest) ≠ .ok (outcome, []) := by
  intro ran
  simp only [Editor.type, Editor.press, leave, ok_bind] at ran
  obtain ⟨done, finished, ran⟩ := bind_eq_ok.mp ran
  obtain ⟨⟨line, oldbuf⟩, -, same⟩ := bind_eq_ok.mp finished
  cases same
  exact more (congrArg Prod.snd (Except.ok.inj ran))

theorem ordinary_of_not_lost (c : Printable) (kept : ¬ (EditKey.char c).Lost) : Ordinary c.val := by
  obtain ⟨c, low, high⟩ := c
  intro inside
  simp only [List.mem_cons, List.not_mem_nil, or_false] at inside
  rcases inside with rfl | rfl | rfl | rfl | rfl | letter
  · exact absurd low (by decide)
  · exact absurd low (by decide)
  · exact absurd low (by decide)
  · exact absurd high (by decide)
  · exact absurd low (by decide)
  · exact kept (by simpa [EditKey.Lost] using letter)

/-- What an edit does to the array. -/
def Editor.apply (e : Editor) : Edit Char → Editor
  | .put c => e.stored c
  | .rub => { e with index := e.index - 1 }
  | .stay => e

theorem apply_line (room : e.index < 4096) (x : Edit Char) : (e.apply x).line = x.apply e.line := by
  cases x with
  | put c => exact stored_line room c
  | rub =>
    have inside : e.index < e.buf.bytes.length := by rwa [e.buf.size]
    exact (List.dropLast_take inside).symm
  | stay => rfl

/-- A key that does not recall a line and for which there is room. -/
theorem type_key (other : k ≠ up) (room : ∀ c, k.effect = .put c → e.index < 4094) (rest : List Char) :
    e.type (k.bytes ++ rest) = (e.apply k.effect).type rest := by
  cases k with
  | char c =>
    by_cases lost : (EditKey.char c).Lost
    · have letter : c.val ≠ 'A' := fun same => other (congrArg EditKey.char (Subtype.ext same))
      have ignored : c.val ∈ ['\x1b', '[', 'B', 'C', 'D'] := by
        simp only [EditKey.Lost, List.mem_cons, letter, List.not_mem_nil, or_false, false_or] at lost ⊢
        exact Or.inr lost
      rw [EditKey.effect, if_pos lost]
      exact type_again (key_ignored ignored) rest
    · have stores : (EditKey.char c).effect = .put c.val := if_neg lost
      have below := room c.val stores
      have stored := key_stored (ordinary_of_not_lost c lost) (Nat.lt_trans below (by decide))
      rw [if_neg (Nat.not_le_of_lt below)] at stored
      rw [stores]
      exact type_again stored rest
  | backspace => exact type_again rfl rest
  | arrow a =>
    have letter : a.letter ∈ ['\x1b', '[', 'B', 'C', 'D'] := by cases a <;> decide
    refine (type_again (key_ignored (by decide)) _).trans ?_
    refine (type_again (key_ignored (by decide)) _).trans ?_
    exact type_again (key_ignored letter) rest

theorem apply_index (e : Editor) (x : Edit Char) : (e.apply x).index = x.length e.index := by
  cases x <;> rfl

theorem apply_inside (inside : e.index < 4096) (room : ∀ c, k.effect = .put c → e.index < 4094) :
    (e.apply k.effect).index < 4096 := by
  rw [apply_index]
  cases effect : k.effect with
  | put c => exact Nat.lt_trans (Nat.succ_lt_succ (room c effect)) (by decide)
  | rub => exact Nat.lt_of_le_of_lt (Nat.sub_le _ 1) inside
  | stay => exact inside

/-- A key that is stored is a character of the text. -/
theorem stores_key (stores : k.effect = .put c) :
    ∃ c : Printable, k = .char c ∧ Ordinary c.val := by
  rw [EditKey.effect] at stores
  split at stores
  · cases stores
  · next kept =>
    cases k with
    | char c => exact ⟨c, rfl, ordinary_of_not_lost c kept⟩
    | backspace => cases stores
    | arrow a => cases stores

theorem edit_of_stores (stores : k.effect = .put c) : k.edit = .put c := by
  rw [EditKey.effect] at stores
  split at stores
  · cases stores
  · exact stores

theorem effect_ne_put_nul (k : EditKey) : k.effect ≠ .put nul := by
  rw [EditKey.effect]
  split
  · nofun
  · cases k with
    | char c =>
      intro same
      have low := c.property.1
      rw [Edit.put.inj same] at low
      exact absurd low (by decide)
    | backspace => nofun
    | arrow a => nofun

/-- No key writes a terminator. -/
theorem apply_plain (plain : nul ∉ e.buf.bytes) (k : EditKey) : nul ∉ (e.apply k.effect).buf.bytes := by
  cases effect : k.effect with
  | put c =>
    intro inside
    obtain old | same := List.mem_or_eq_of_mem_set inside
    · exact plain old
    · exact effect_ne_put_nul k (same ▸ effect)
  | rub => exact plain
  | stay => exact plain

theorem apply_line_plain {line : List Char} (plain : nul ∉ line) (k : EditKey) :
    nul ∉ k.effect.apply line := by
  cases effect : k.effect with
  | put c =>
    rw [Edit.apply, List.mem_append, List.mem_singleton, not_or]
    exact ⟨plain, fun same => effect_ne_put_nul k (same ▸ effect)⟩
  | rub => exact fun inside => plain ((List.dropLast_sublist line).subset inside)
  | stay => exact plain

/-! ### The length of the line -/

variable {n m : Nat} {keys : List EditKey}

theorem lengthAfter_room (room : ∀ c, k.effect = .put c → n < 4094) (keys : List EditKey) :
    lengthAfter n (k :: keys) = lengthAfter (k.effect.length n) keys := by
  rw [lengthAfter]
  cases effect : k.effect with
  | put c => exact if_pos (room c effect)
  | rub => rfl
  | stay => rfl

theorem lengthAfter_full (stores : k.effect = .put c) (full : 4094 ≤ n) (keys : List EditKey) :
    lengthAfter n (k :: keys) = none := by
  rw [lengthAfter, stores]
  exact if_neg (Nat.not_lt_of_le full)

/-- There is room for a key, or it fills the array. -/
theorem lengthAfter_cons (n : Nat) (k : EditKey) (keys : List EditKey) :
    ((∀ c, k.effect = .put c → n < 4094) ∧
      lengthAfter n (k :: keys) = lengthAfter (k.effect.length n) keys) ∨
    ∃ c, k.effect = .put c ∧ 4094 ≤ n ∧ lengthAfter n (k :: keys) = none := by
  by_cases room : ∀ c, k.effect = .put c → n < 4094
  · exact Or.inl ⟨room, lengthAfter_room room keys⟩
  · obtain ⟨c, full⟩ := not_forall.mp room
    obtain ⟨stores, full⟩ := Classical.not_imp.mp full
    exact Or.inr ⟨c, stores, Nat.le_of_not_lt full, lengthAfter_full stores (Nat.le_of_not_lt full) keys⟩

theorem lengthAfter_append (n : Nat) (front keys : List EditKey) :
    lengthAfter n (front ++ keys) = (lengthAfter n front).bind fun m => lengthAfter m keys := by
  induction front generalizing n with
  | nil => rfl
  | cons k front ih =>
    rw [List.cons_append]
    obtain ⟨room, next⟩ | ⟨c, stores, full, next⟩ := lengthAfter_cons n k front
    · rw [next, lengthAfter_room room, ih]
    · rw [next, lengthAfter_full stores full]
      rfl

theorem length_run {line : List Char} (room : lengthAfter line.length keys = some n) :
    (run EditKey.effect line keys).length = n := by
  induction keys generalizing line with
  | nil => exact Option.some.inj room
  | cons k keys ih =>
    obtain ⟨-, next⟩ | ⟨-, -, -, next⟩ := lengthAfter_cons line.length k keys
    · rw [next, ← Edit.length_apply] at room
      exact ih room
    · rw [next] at room
      cases room

/-- A shorter line has room for the same keys, and stays shorter. -/
theorem lengthAfter_mono (shorter : n ≤ m) (room : lengthAfter m keys = some m') :
    ∃ n', lengthAfter n keys = some n' ∧ n' ≤ m' := by
  induction keys generalizing n m with
  | nil => exact ⟨n, rfl, Option.some.inj room ▸ shorter⟩
  | cons k keys ih =>
    obtain ⟨below, next⟩ | ⟨-, -, -, next⟩ := lengthAfter_cons m k keys
    · rw [next] at room
      rw [lengthAfter_room fun c stores => Nat.lt_of_le_of_lt shorter (below c stores)]
      exact ih ((Lossy.same k.effect).length_le shorter) room
    · rw [next] at room
      cases room

theorem effect_of_not_lost (kept : ¬ k.Lost) : k.effect = k.edit := if_neg kept

theorem lossy_effect (k : EditKey) : Lossy k.effect k.edit := by
  by_cases lost : k.Lost
  · cases k with
    | char c =>
      rw [EditKey.effect, if_pos lost]
      exact .drop c.val
    | backspace => exact absurd lost id
    | arrow a => exact absurd lost id
  · rw [effect_of_not_lost lost]
    exact .same k.edit

/-- There is room for what is not dropped if there is room for all that is typed. -/
theorem lengthAfter_within {line : List Char} (shorter : n ≤ line.length)
    (within : ∀ front, front <+: keys → (run EditKey.edit line front).length ≤ 4094) :
    ∃ m, lengthAfter n keys = some m ∧ m ≤ (run EditKey.edit line keys).length := by
  induction keys generalizing n line with
  | nil => exact ⟨n, rfl, shorter⟩
  | cons k keys ih =>
    have later : ∀ front, front <+: keys →
        (run EditKey.edit (k.edit.apply line) front).length ≤ 4094 :=
      fun front inside => within (k :: front) (List.cons_prefix_cons.mpr ⟨rfl, inside⟩)
    have bound := later [] (List.nil_prefix)
    rw [run_nil, Edit.length_apply] at bound
    have longer := (lossy_effect k).length_le shorter
    rw [lengthAfter_room fun c stores => ?_]
    · exact ih (Edit.length_apply k.edit line ▸ longer) later
    · rw [stores] at longer
      exact Nat.le_trans longer bound

/-! ### Keys up to Enter -/

/-- Keys that leave room and recall no line. -/
theorem type_keys (inside : e.index < 4096) (recalls : up ∉ keys)
    (room : lengthAfter e.index keys = some n) :
    ∃ e' : Editor, (∀ rest, e.type (keys.flatMap EditKey.bytes ++ rest) = e'.type rest) ∧
      e'.line = run EditKey.effect e.line keys ∧ e'.index = n ∧ e'.index < 4096 ∧
      (nul ∉ e.line → nul ∉ e'.line) ∧ (nul ∉ e.buf.bytes → nul ∉ e'.buf.bytes) := by
  induction keys generalizing e with
  | nil => exact ⟨e, fun rest => rfl, rfl, Option.some.inj room, inside, id, id⟩
  | cons k keys ih =>
    obtain ⟨other, recalls⟩ := List.ne_and_not_mem_of_not_mem_cons recalls
    obtain ⟨below, next⟩ | ⟨-, -, -, full⟩ := lengthAfter_cons e.index k keys
    · rw [next, ← apply_index] at room
      obtain ⟨e', types, line, index, inside', plain, unended⟩ :=
        ih (apply_inside inside below) recalls room
      rw [apply_line inside] at line plain
      refine ⟨e', fun rest => ?_, line, index, inside', fun first => plain (apply_line_plain first k),
        fun first => unended (apply_plain first k)⟩
      rw [List.flatMap_cons, List.append_assoc, type_key (Ne.symm other) below]
      exact types rest
    · rw [full] at room
      cases room

/-- A key that fills the array completes the line before Enter. -/
theorem type_full (inside : e.index < 4096) (recalls : up ∉ keys)
    (full : lengthAfter e.index keys = none) (outcome : Outcome) :
    e.type (keys.flatMap EditKey.bytes ++ ['\n']) ≠ .ok (outcome, []) := by
  induction keys generalizing e with
  | nil => cases full
  | cons k keys ih =>
    obtain ⟨other, recalls⟩ := List.ne_and_not_mem_of_not_mem_cons recalls
    rw [List.flatMap_cons, List.append_assoc]
    obtain ⟨below, next⟩ | ⟨c, stores, late, -⟩ := lengthAfter_cons e.index k keys
    · rw [type_key (Ne.symm other) below]
      rw [next, ← apply_index] at full
      exact ih (apply_inside inside below) recalls full
    · obtain ⟨c, rfl, ordinary⟩ := stores_key stores
      have stored := key_stored ordinary inside
      rw [if_pos late] at stored
      exact type_leave stored (by simp)

/-- Enter hands the line on. -/
theorem type_enter (inside : e.index < 4096) (plain : nul ∉ e.line) :
    ∃ line oldbuf, e.type ['\n'] = .ok (.handed line oldbuf, []) ∧ line.text = e.line := by
  have trimmed : (e.stored '\n').trimmed = e.index := by
    rw [trimmed_stored inside, if_pos rfl]
  have whole : nul ∉ (e.stored '\n').line := by
    rw [stored_line inside, List.mem_append, List.mem_singleton, not_or]
    exact ⟨plain, by decide⟩
  obtain ⟨line, finish, text⟩ := finish_ok (trimmed ▸ inside) whole
  refine ⟨line, _, type_handed (key_newline inside) finish [], ?_⟩
  rw [text, trimmed]
  exact List.take_set_of_le (Nat.le_refl _)

/-- What is handed on when no line is recalled. -/
theorem hands_iff (inside : e.index < 4096) (plain : nul ∉ e.line) (recalls : up ∉ keys)
    (text : List Char) : Hands e keys text ↔
      (∃ n, lengthAfter e.index keys = some n) ∧ run EditKey.effect e.line keys = text := by
  cases room : lengthAfter e.index keys with
  | none =>
    refine iff_of_false ?_ (by simp)
    rintro ⟨line, oldbuf, ran, -⟩
    exact type_full inside recalls room _ ran
  | some n =>
    obtain ⟨e', types, line, -, inside', whole, -⟩ := type_keys inside recalls room
    obtain ⟨handed, oldbuf, ran, same⟩ := type_enter inside' (whole plain)
    rw [Hands, types, ran, ← line, ← same]
    constructor
    · rintro ⟨_, _, ⟨⟩, rfl⟩
      exact ⟨⟨n, rfl⟩, rfl⟩
    · rintro ⟨-, rfl⟩
      exact ⟨_, _, rfl, rfl⟩

/-! ### Recalled lines -/

/-- The string in `buf`, which need not be the line, and the one in `oldbuf`. -/
structure Strings (e : Editor) (text old : List Char) : Prop where
  inside : e.index < 4096
  ended : nul ∈ e.buf.bytes
  current : Terminated.text ⟨e.buf, ended⟩ = text
  saved : e.oldbuf.text = old

theorem start_strings (garbage : Buffer) (oldbuf : Terminated) :
    Strings (.start garbage oldbuf) [] oldbuf.text where
  inside := Nat.zero_lt_succ _
  ended := start_ended garbage oldbuf
  current := close_text garbage (Nat.zero_lt_succ _) nofun
  saved := rfl

theorem Strings.exchanged (strings : Strings e text old) :
    Strings (e.exchanged strings.ended) old text where
  inside := e.oldbuf.short
  ended := (e.buf.copy e.oldbuf).ended
  current := (Buffer.copy_text ..).trans strings.saved
  saved := (Buffer.copy_text ..).trans strings.current

theorem Strings.apply (strings : Strings e text old) (unstored : ∀ c, k.effect ≠ .put c) :
    Strings (e.apply k.effect) text old := by
  have inside : (e.apply k.effect).index < 4096 :=
    apply_inside strings.inside fun c stores => absurd stores (unstored c)
  cases effect : k.effect with
  | put c => exact absurd effect (unstored c)
  | rub => exact ⟨effect ▸ inside, strings.ended, strings.current, strings.saved⟩
  | stay => exact strings

theorem type_up (ended : nul ∈ e.buf.bytes) (rest : List Char) :
    e.type (up.bytes ++ rest) = (e.exchanged ended).type rest := type_again (key_up ended) rest

/-- Keys that store nothing exchange the two strings or leave them. -/
theorem type_unstored (strings : Strings e text old)
    (unstored : ∀ k ∈ keys, ∀ c, k.effect ≠ .put c) :
    ∃ e' : Editor, (∀ rest, e.type (keys.flatMap EditKey.bytes ++ rest) = e'.type rest) ∧
      if keys.count up % 2 = 0 then Strings e' text old else Strings e' old text := by
  induction keys generalizing e text old with
  | nil => exact ⟨e, fun rest => rfl, strings⟩
  | cons k keys ih =>
    obtain ⟨first, later⟩ := List.forall_mem_cons.mp unstored
    by_cases recalls : k = up
    · subst recalls
      obtain ⟨e', types, after⟩ := ih strings.exchanged later
      refine ⟨e', fun rest => ?_, ?_⟩
      · rw [List.flatMap_cons, List.append_assoc, type_up strings.ended]
        exact types rest
      · rw [List.count_cons_self]
        split at after
        · rwa [if_neg (by omega)]
        · rwa [if_pos (by omega)]
    · obtain ⟨e', types, after⟩ := ih (strings.apply first) later
      refine ⟨e', fun rest => ?_, ?_⟩
      · rw [List.flatMap_cons, List.append_assoc,
          type_key recalls fun c stores => absurd stores (first c)]
        exact types rest
      · rwa [List.count_cons_of_ne recalls]

/-- The line that the last recall gives. -/
theorem type_recalled (garbage : Buffer) (oldbuf : Terminated)
    (unstored : ∀ k ∈ keys, ∀ c, k.effect ≠ .put c) :
    ∃ e : Editor, (∀ rest, (Editor.start garbage oldbuf).type
        (keys.flatMap EditKey.bytes ++ (up.bytes ++ rest)) = e.type rest) ∧
      e.index < 4096 ∧ e.line = if keys.count up % 2 = 0 then oldbuf.text else [] := by
  obtain ⟨e, types, strings⟩ := type_unstored (start_strings garbage oldbuf) unstored
  split at strings
  · next even =>
    refine ⟨e.exchanged strings.ended, fun rest => ?_, strings.exchanged.inside, ?_⟩
    · rw [types, type_up]
    · rw [exchanged_line, strings.saved, if_pos even]
  · next odd =>
    refine ⟨e.exchanged strings.ended, fun rest => ?_, strings.exchanged.inside, ?_⟩
    · rw [types, type_up]
    · rw [exchanged_line, strings.saved, if_neg odd]

/-- A line as `oldbuf` holds it. -/
def Terminated.of (line : List Char) (short : line.length ≤ 4095) : Terminated where
  bytes := line ++ nul :: List.replicate (4095 - line.length) nul
  size := by
    rw [List.length_append, List.length_cons, List.length_replicate]
    omega
  ended := List.mem_append_right _ List.mem_cons_self

theorem Terminated.of_text (line : List Char) (short : line.length ≤ 4095) (plain : nul ∉ line) :
    (Terminated.of line short).text = line := Terminated.text_eq (holds_front plain _)

/-- Keys with a last recall in front of which nothing is stored. -/
theorem hands_recalled_iff (unstored : ∀ k ∈ before, ∀ c, k.effect ≠ .put c) (recalls : up ∉ keys)
    (garbage : Buffer) (oldbuf : Terminated) (text : List Char) :
    Hands (.start garbage oldbuf) (before ++ up :: keys) text ↔
      (∃ n, lengthAfter (if before.count up % 2 = 0 then oldbuf.text else []).length keys = some n) ∧
        run EditKey.effect (if before.count up % 2 = 0 then oldbuf.text else []) keys = text := by
  obtain ⟨e, types, inside, line⟩ := type_recalled garbage oldbuf unstored
  have plain : nul ∉ e.line := by
    rw [line]
    split
    · exact oldbuf.holds.1
    · exact nofun
  have later := hands_iff inside plain recalls text
  rw [line, ← length_line (Nat.le_of_lt inside), line] at later
  rw [← later, Hands, Hands, List.flatMap_append, List.flatMap_cons, List.append_assoc,
    List.append_assoc, types]

/-- Nothing but terminators in front of other bytes, and no line to recall. -/
structure Bare (e : Editor) : Prop where
  bytes : e.buf.bytes = nul :: List.replicate 4095 'x'
  index : e.index = 0
  oldbuf : e.oldbuf.text = []

theorem Bare.ended (bare : Bare e) : nul ∈ e.buf.bytes := by
  rw [bare.bytes]
  exact List.mem_cons_self

theorem Bare.exchanged (bare : Bare e) : Bare (e.exchanged bare.ended) where
  bytes := by
    have copied : (e.exchanged bare.ended).buf.bytes =
      e.oldbuf.text ++ nul :: e.buf.bytes.drop (e.oldbuf.text.length + 1) := rfl
    rw [copied, bare.oldbuf, bare.bytes]
    rfl
  index := congrArg List.length bare.oldbuf
  oldbuf := by
    have empty : Holds e.buf.bytes 0 [] := ⟨nofun, _, bare.bytes⟩
    exact (Buffer.copy_text ..).trans (Terminated.text_eq empty)

theorem Bare.apply (bare : Bare e) (unstored : ∀ c, k.effect ≠ .put c) : Bare (e.apply k.effect) := by
  cases effect : k.effect with
  | put c => exact absurd effect (unstored c)
  | rub => exact ⟨bare.bytes, congrArg (· - 1) bare.index, bare.oldbuf⟩
  | stay => exact bare

theorem type_bare (bare : Bare e) (unstored : ∀ k ∈ keys, ∀ c, k.effect ≠ .put c) :
    ∃ e' : Editor, (∀ rest, e.type (keys.flatMap EditKey.bytes ++ rest) = e'.type rest) ∧ Bare e' := by
  induction keys generalizing e with
  | nil => exact ⟨e, fun rest => rfl, bare⟩
  | cons k keys ih =>
    obtain ⟨first, later⟩ := List.forall_mem_cons.mp unstored
    have step : ∃ e' : Editor, (∀ rest, e.type (k.bytes ++ rest) = e'.type rest) ∧ Bare e' := by
      by_cases recalls : k = up
      · subst recalls
        exact ⟨_, type_up bare.ended, bare.exchanged⟩
      · exact ⟨_, type_key recalls fun c stores => absurd stores (first c), bare.apply first⟩
    obtain ⟨e₁, typesK, bare₁⟩ := step
    obtain ⟨e', types, bare'⟩ := ih bare₁ later
    refine ⟨e', fun rest => ?_, bare'⟩
    rw [List.flatMap_cons, List.append_assoc, typesK, types]

/-- A recall behind a character that was stored finds no terminator if there is none
by chance. -/
theorem not_hands_unended (unstored : ∀ k ∈ before, ∀ c, k.effect ≠ .put c)
    (stores : k.effect = .put c) (between : up ∉ keys) (room : lengthAfter 1 keys = some n)
    (rest : List EditKey) (text : List Char) :
    ∃ garbage oldbuf, ¬ Hands (.start garbage oldbuf) (before ++ k :: (keys ++ up :: rest)) text := by
  let garbage : Buffer := ⟨List.replicate 4096 'x', List.length_replicate⟩
  let oldbuf : Terminated := .of [] (Nat.zero_le _)
  have bare : Bare (.start garbage oldbuf) := by
    refine ⟨?_, rfl, Terminated.of_text [] (Nat.zero_le _) nofun⟩
    exact congrArg (List.set · 0 nul) List.replicate_succ
  obtain ⟨e, types, bytes, index, -⟩ := type_bare bare unstored
  have other : k ≠ up := fun same => by
    rw [same] at stores
    cases stores
  have below : e.index < 4094 := by omega
  have filled : nul ∉ (e.stored c).buf.bytes := by
    have written : (e.stored c).buf.bytes = c :: List.replicate 4095 'x' := by
      have set : (e.stored c).buf.bytes = e.buf.bytes.set e.index c := rfl
      rw [set, bytes, index, List.set_cons_zero]
    rw [written]
    refine List.not_mem_cons_of_ne_of_not_mem (fun same => effect_ne_put_nul k (same ▸ stores)) ?_
    exact fun inside => absurd (List.eq_of_mem_replicate inside) (by decide)
  have count : (e.stored c).index = 1 := congrArg (· + 1) index
  obtain ⟨e', types', -, -, -, -, unended⟩ :=
    type_keys (e := e.stored c) (by omega) between (count ▸ room)
  have stopped (keys : List Char) : e'.type (up.bytes ++ keys) = .error .unended := by
    have letter : up.bytes ++ keys = 'A' :: keys := rfl
    rw [letter, Editor.type, Editor.press, key_up_unended (unended filled)]
    rfl
  refine ⟨garbage, oldbuf, ?_⟩
  rintro ⟨line, saved, ran, -⟩
  simp only [List.flatMap_append, List.flatMap_cons, List.append_assoc] at ran
  rw [types, type_key other fun _ _ => below, stores, Editor.apply, types', stopped] at ran
  cases ran

end

/-! ### What is handed on -/

theorem typed_append (front keys : List EditKey) :
    typed (front ++ keys) = run EditKey.edit (typed front) keys := run_append ..

theorem effect_eq_edit_iff (k : EditKey) : k.effect = k.edit ↔ ¬ k.Lost := by
  refine ⟨fun same lost => ?_, effect_of_not_lost⟩
  rw [EditKey.effect, if_pos lost] at same
  cases k with
  | char c => cases same
  | backspace => exact lost
  | arrow a => exact lost

theorem first_split {p : α → Prop} {list : List α} (some : ∃ a ∈ list, p a) :
    ∃ before a after, list = before ++ a :: after ∧ p a ∧ ∀ b ∈ before, ¬ p b := by
  induction list with
  | nil =>
    obtain ⟨a, member, -⟩ := some
    cases member
  | cons b list ih =>
    by_cases here : p b
    · exact ⟨[], b, list, rfl, here, nofun⟩
    · obtain ⟨before, a, after, rfl, later, none⟩ := ih (by simpa [here] using some)
      exact ⟨b :: before, a, after, rfl, later, List.forall_mem_cons.mpr ⟨here, none⟩⟩

theorem last_split [DecidableEq α] {a : α} {list : List α} (member : a ∈ list) :
    ∃ before after, list = before ++ a :: after ∧ a ∉ after := by
  obtain ⟨after, before, same, last⟩ := List.eq_append_cons_of_mem (List.mem_reverse.mpr member)
  refine ⟨before.reverse, after.reverse, ?_, by simpa using last⟩
  rw [← List.reverse_reverse list, same]
  simp

/-- The longer of two parts in front of which all is deleted. -/
theorem longer_split {before after before' after' : List EditKey} {line : List Char}
    (empty : run EditKey.edit line before = []) (kept : ∀ k ∈ after, k.effect = k.edit)
    (deleted : lengthAfter 4095 before' = some 0) (same : before ++ after = before' ++ after')
    (within : ∀ front, front <+: before ++ after → (run EditKey.edit line front).length ≤ 4094) :
    ∃ first rest, before ++ after = first ++ rest ∧ run EditKey.edit line first = [] ∧
      lengthAfter 4095 first = some 0 ∧ ∀ k ∈ rest, k.effect = k.edit := by
  obtain ⟨part, rfl, rfl⟩ | ⟨part, rfl, rfl⟩ := List.append_eq_append_iff.mp same
  · have keptPart : ∀ k ∈ part, k.effect = k.edit :=
      fun k member => kept k (List.mem_append_left after' member)
    refine ⟨before ++ part, after', (List.append_assoc ..).symm, ?_, deleted,
      fun k member => kept k (List.mem_append_right part member)⟩
    have shorter : (run EditKey.effect [] part).length ≤
        (run EditKey.effect (run EditKey.effect (List.replicate 4095 'x') before) part).length :=
      length_run_le (fun k _ => .same k.effect) (Nat.zero_le _)
    have none : (run EditKey.effect (List.replicate 4095 'x') (before ++ part)).length = 0 :=
      length_run (by rwa [List.length_replicate])
    rw [← run_append, none, Nat.le_zero, List.length_eq_zero_iff, run_congr [] keptPart] at shorter
    rw [run_append, empty, shorter]
  · refine ⟨before' ++ part, after, rfl, empty, ?_, kept⟩
    have behind : ∀ front, front <+: part →
        (run EditKey.edit (run EditKey.edit line before') front).length ≤ 4094 := by
      intro front inside
      rw [← run_append]
      apply within
      rw [List.append_assoc]
      exact (List.prefix_append_right_inj before').mpr (inside.trans (List.prefix_append part after))
    obtain ⟨m, room, small⟩ := lengthAfter_within (Nat.zero_le _) behind
    rw [← run_append, empty] at small
    rw [lengthAfter_append, deleted, Option.bind_some, room, Nat.le_zero.mp small]

namespace Typing
variable (t : Typing)

/-- There is room for what is typed behind some keys. -/
theorem room_from (front part rest : List EditKey) (split : t.keys = front ++ (part ++ rest)) (shorter : n ≤ (typed front).length) :
    ∃ m, lengthAfter n part = some m ∧ m ≤ (typed (front ++ part)).length := by
  rw [typed_append]
  refine lengthAfter_within shorter fun start inside => ?_
  rw [← typed_append]
  apply t.within
  rw [split]
  exact (List.prefix_append_right_inj front).mpr (inside.trans (List.prefix_append part rest))

/-- Everything that is recalled or lost is deleted, so what is typed behind it comes out. -/
theorem handed_of_recovers (recovers : t.Recovers) : t.Handed := by
  obtain ⟨before, after, split, empty, forgotten, kept⟩ := recovers
  have same : run EditKey.effect [] after = typed t.keys := by
    rw [split, typed_append, empty]
    exact run_congr [] fun k member => effect_of_not_lost (kept k member)
  have upKept : up ∉ after := fun member => kept up member (by decide)
  intro garbage oldbuf
  obtain none | ⟨front, mid, rfl, last, unstored, parity⟩ := forgotten
  · have absent : up ∉ t.keys := by
      rw [split, List.mem_append, not_or]
      exact ⟨none, upKept⟩
    obtain ⟨n, room, -⟩ := t.room_from (n := 0) [] t.keys [] (List.append_nil _).symm (Nat.le_refl _)
    refine (hands_iff (Nat.zero_lt_succ _) List.not_mem_nil absent _).mpr ⟨⟨n, room⟩, ?_⟩
    have shorter : (run EditKey.effect [] before).length ≤ (typed before).length :=
      length_run_le (fun k _ => lossy_effect k) (Nat.le_refl _)
    rw [empty, List.length_nil, Nat.le_zero, List.length_eq_zero_iff] at shorter
    have line : (Editor.start garbage oldbuf).line = [] := rfl
    rw [line, ← same, split, run_append, shorter]
  · rw [List.append_assoc, List.cons_append] at split
    rw [split]
    have absent : up ∉ mid ++ after := by
      rw [List.mem_append, not_or]
      exact ⟨last, upKept⟩
    refine (hands_recalled_iff unstored absent garbage oldbuf _).mpr ?_
    generalize recalled : (if front.count up % 2 = 0 then oldbuf.text else []) = line
    -- the recalled line is empty or, at the latest, deleted by `mid`
    have gone : lengthAfter line.length mid = some 0 := by
      split at recalled
      · next even =>
        subst recalled
        have full := parity.resolve_left (by omega)
        obtain ⟨m, room, small⟩ := lengthAfter_mono (Nat.le_of_lt_succ oldbuf.short) full
        rwa [Nat.le_zero.mp small] at room
      · subst recalled
        obtain ⟨m, room, small⟩ := t.room_from (n := 0) (front ++ [up]) mid after (by simpa using split)
          (Nat.zero_le _)
        rw [List.append_assoc, List.singleton_append, empty] at small
        rwa [Nat.le_zero.mp small] at room
    have deleted : run EditKey.effect line mid = [] := List.length_eq_zero_iff.mp (length_run gone)
    obtain ⟨n, room, -⟩ := t.room_from (n := 0) (front ++ up :: mid) after [] (by simpa using split)
      (Nat.zero_le _)
    refine ⟨⟨n, ?_⟩, ?_⟩
    · rw [lengthAfter_append, gone]
      exact room
    · rw [run_append, deleted, same, split]

/-- Nothing is stored before the last recall. -/
theorem unstored_of_handed (handed : t.Handed) (split : t.keys = front ++ up :: mid) :
    ∀ k ∈ front, ∀ c, k.effect ≠ .put c := by
  by_contra stored
  simp only [not_forall, ne_eq, not_not] at stored
  obtain ⟨k, member, c, stores⟩ := stored
  obtain ⟨before, k, after, rfl, ⟨c, stores⟩, unstored⟩ :=
    first_split (p := fun k => ∃ c, k.effect = .put c) ⟨k, member, c, stores⟩
  obtain ⟨between, rest, same, none⟩ := List.eq_append_cons_of_mem
    (List.mem_append_right after (List.mem_cons_self (a := up) (l := mid)))
  rw [List.append_assoc, List.cons_append, same] at split
  have one : 1 ≤ (typed (before ++ [k])).length := by
    rw [typed_append, run_cons, edit_of_stores stores]
    exact List.length_pos_of_ne_nil (by simp [Edit.apply])
  obtain ⟨m, room, -⟩ := t.room_from (n := 1) (before ++ [k]) between (up :: rest) (by simpa using split) one
  obtain ⟨garbage, oldbuf, fails⟩ := not_hands_unended (fun k member c same => unstored k member ⟨c, same⟩)
    stores none room rest (typed t.keys)
  exact fails (split ▸ handed garbage oldbuf)

/-- Keys that make the same of two full lines delete all of them. -/
theorem deleted_of_same {mid : List EditKey} (room : lengthAfter 4095 mid = some n)
    (same : run EditKey.effect (List.replicate 4095 'x') mid =
      run EditKey.effect (List.replicate 4095 'y') mid) :
    ∃ before after, mid = before ++ after ∧ lengthAfter 4095 before = some 0 := by
  by_contra stays
  have filled (c : Char) (before after : List EditKey) (split : mid = before ++ after) :
      run EditKey.effect (List.replicate 4095 c) before ≠ [] := by
    intro empty
    refine stays ⟨before, after, split, ?_⟩
    rw [split, lengthAfter_append] at room
    obtain ⟨m, here, -⟩ := Option.bind_eq_some_iff.mp room
    have length : (run EditKey.effect (List.replicate 4095 c) before).length = m :=
      length_run (by rwa [List.length_replicate])
    rw [empty] at length
    rw [here, ← length]
    rfl
  have first := (head?_run EditKey.effect (filled 'x')).symm
  rw [same, head?_run EditKey.effect (filled 'y'), List.head?_replicate, List.head?_replicate] at first
  exact absurd first (by decide)

theorem recovers_behind (split : t.keys = front ++ up :: (first ++ rest)) (last : up ∉ first ++ rest)
    (unstored : ∀ k ∈ front, ∀ c, k.effect ≠ .put c)
    (empty : run EditKey.edit (typed (front ++ [up])) first = [])
    (gone : front.count up % 2 = 1 ∨ lengthAfter 4095 first = some 0)
    (kept : ∀ k ∈ rest, k.effect = k.edit) : t.Recovers := by
  refine ⟨front ++ up :: first, rest, by simpa using split, ?_, Or.inr ⟨front, first, rfl, ?_,
    unstored, gone⟩, fun k member => (effect_eq_edit_iff k).mp (kept k member)⟩
  · rw [← List.singleton_append, ← List.append_assoc, typed_append]
    exact empty
  · exact fun member => last (List.mem_append_left rest member)

theorem recovers_of_handed (handed : t.Handed) : t.Recovers := by
  by_cases recalled : up ∈ t.keys
  · obtain ⟨front, mid, split, last⟩ := last_split recalled
    have unstored := t.unstored_of_handed handed split
    have lines (oldbuf : Terminated) := (hands_recalled_iff unstored last oldbuf.toBuffer oldbuf
      (typed t.keys)).mp (split ▸ handed oldbuf.toBuffer oldbuf)
    have whole : typed t.keys = run EditKey.edit (typed (front ++ [up])) mid := by
      rw [← typed_append, split]
      simp
    -- with nothing to recall, what is typed is deleted before it comes out
    obtain ⟨before, after, rfl, empty, kept⟩ : ∃ before after, mid = before ++ after ∧
        run EditKey.edit (typed (front ++ [up])) before = [] ∧ ∀ k ∈ after, k.effect = k.edit := by
      obtain ⟨-, line⟩ := lines (.of [] (Nat.zero_le _))
      rw [Terminated.of_text [] (Nat.zero_le _) List.not_mem_nil, ite_self, whole] at line
      have longer : (typed (front ++ [up])).length ≠ 0 := by
        rw [typed_append]
        simp [up, EditKey.edit, Edit.apply]
      obtain ⟨same, -⟩ | found := lossy_split (fun k _ => lossy_effect k) (Nat.zero_le _)
        (congrArg List.length line)
      · exact absurd same.symm longer
      · exact found
    by_cases even : front.count up % 2 = 0
    · have full (c : Char) (plain : nul ∉ List.replicate 4095 c) :
          (∃ n, lengthAfter 4095 (before ++ after) = some n) ∧
            run EditKey.effect (List.replicate 4095 c) (before ++ after) = typed t.keys := by
        have recalls := lines (.of (List.replicate 4095 c) (Nat.le_of_eq List.length_replicate))
        rwa [if_pos even, Terminated.of_text _ _ plain, List.length_replicate] at recalls
      have other (c : Char) (differs : nul ≠ c) : nul ∉ List.replicate 4095 c :=
        fun member => differs (List.eq_of_mem_replicate member)
      obtain ⟨⟨n, room⟩, lineX⟩ := full 'x' (other 'x' (by decide))
      obtain ⟨-, lineY⟩ := full 'y' (other 'y' (by decide))
      obtain ⟨before', after', same, deleted⟩ := deleted_of_same room (lineX.trans lineY.symm)
      have within : ∀ start, start <+: before ++ after →
          (run EditKey.edit (typed (front ++ [up])) start).length ≤ 4094 := fun start inside => by
        rw [← typed_append]
        apply t.within
        have behind : t.keys = front ++ [up] ++ (before ++ after) := split.trans (List.append_cons ..)
        rw [behind]
        exact (List.prefix_append_right_inj _).mpr inside
      obtain ⟨first, rest, parts, emptied, drained, keptRest⟩ :=
        longer_split empty kept deleted same within
      rw [parts] at split last
      exact t.recovers_behind split last unstored emptied (Or.inr drained) keptRest
    · exact t.recovers_behind split last unstored empty (Or.inl (by omega)) kept
  · have ran := (hands_iff (Nat.zero_lt_succ _) List.not_mem_nil recalled (typed t.keys)).mp
      (handed (Terminated.of [] (Nat.zero_le _)).toBuffer (.of [] (Nat.zero_le _)))
    have line : run EditKey.effect [] t.keys = typed t.keys := ran.2
    obtain ⟨-, same⟩ | ⟨before, after, split, empty, same⟩ :=
      lossy_split (fun k _ => lossy_effect k) (Nat.le_refl _) (congrArg List.length line)
    · exact ⟨[], t.keys, rfl, rfl, Or.inl List.not_mem_nil,
        fun k member => (effect_eq_edit_iff k).mp (same k member)⟩
    · refine ⟨before, after, split, empty, Or.inl fun member => recalled ?_,
        fun k member => (effect_eq_edit_iff k).mp (same k member)⟩
      rw [split]
      exact List.mem_append_left after member

/-- What is typed is handed on exactly if nothing is left of what was typed up to the
last letter that is lost or recalls a line. -/
theorem handed_iff : t.Handed ↔ t.Recovers := ⟨t.recovers_of_handed, t.handed_of_recovers⟩

/-- There is room for few keys, whatever they are. -/
def ofShort (keys : List EditKey) (short : keys.length ≤ 4094) : Typing where
  keys := keys
  within front inside := by
    have length := length_run_le_add EditKey.edit [] front
    have fewer := inside.length_le
    rw [List.length_nil, Nat.zero_add] at length
    exact Nat.le_trans length (Nat.le_trans fewer short)

/-- The letter `B` and Enter give an empty line. -/
theorem letter_is_lost : ¬ (ofShort [.char ⟨'B', by decide⟩] (by decide)).Handed := by
  intro handed
  have nothing : Terminated := .of [] (Nat.zero_le _)
  obtain ⟨-, line⟩ := (hands_iff (Nat.zero_lt_succ _) List.not_mem_nil (by decide) _).mp
    (handed nothing.toBuffer nothing)
  have same : run EditKey.effect [] [.char ⟨'B', by decide⟩] = ['B'] := line
  exact absurd same (by decide)

end Typing

end Comp304.Shell
