import Comp304.Shell.Expansion

/-! The expansion of a line by a table of aliases, whatever is in the local arrays.
`alias` is filled without a terminator, so what it held before decides what is
looked for. -/
namespace Comp304.Shell
open Library Library.CString Library.Budget

/-! ### Words of the line -/

/-- The name is a word at this place: behind a blank or at the start of the line, and in
front of a blank. -/
def Entry.IsWord (e : Entry) (text : List Char) (i : Nat) : Prop :=
  e.name ++ [' '] <+: text.drop i ∧ (i = 0 ∨ text[i - 1]? = some ' ')

instance (e : Entry) (text : List Char) (i : Nat) : Decidable (e.IsWord text i) :=
  inferInstanceAs (Decidable (_ ∧ _))

/-- Where the name is a word for the first time. -/
def Entry.firstWord (e : Entry) (text : List Char) : Option Nat :=
  (List.range text.length).find? fun i => e.IsWord text i

/-- What the entry is to make of a line: the command with a blank is put in for the first
word that is the name, and for the blank behind it. -/
def Entry.expand (e : Entry) (text : List Char) : List Char :=
  match e.firstWord text with
  | some i => text.take i ++ (e.comm ++ [' ']) ++ text.drop (i + e.name.length + 1)
  | none => text

/-- The line after all entries in their order. -/
def expandAll (entries : List Entry) (text : List Char) : List Char :=
  entries.foldl (fun text e => e.expand text) text

/-- If the name is a word at all, it is one where it is in front of a blank for the first
time. -/
def Entry.FirstIsWord (e : Entry) (text : List Char) : Prop :=
  ∀ i j, strstr text (e.name ++ [' ']) = some i → e.IsWord text j → e.IsWord text i

theorem Entry.IsWord.inside {e : Entry} (word : e.IsWord text i) : i < text.length := by
  have length := word.1.length_le
  rw [List.length_append, List.length_singleton, List.length_drop] at length
  omega

theorem Entry.firstWord_eq_some (e : Entry) (first : ∀ j < i, ¬ e.IsWord text j)
    (word : e.IsWord text i) : e.firstWord text = some i := by
  rw [firstWord, List.find?_range_eq_some]
  refine ⟨decide_eq_true word, List.mem_range.mpr word.inside, fun j front => ?_⟩
  simpa using first j front

theorem Entry.firstWord_eq_none (e : Entry) (absent : ∀ i, ¬ e.IsWord text i) :
    e.firstWord text = none := by
  rw [firstWord, List.find?_range_eq_none]
  intro i _
  simpa using absent i

/-- Then the code replaces what it is to replace. -/
theorem Entry.substitute_eq_expand (e : Entry) (first : e.FirstIsWord text) :
    e.substitute text = e.expand text := by
  rw [substitute, expand]
  cases found : strstr text (e.name ++ [' ']) with
  | none =>
    have absent := strstr_eq_none_iff.mp found
    rw [e.firstWord_eq_none fun i word => absent i word.1]
  | some i =>
    obtain ⟨here, before⟩ := strstr_eq_some_iff.mp found
    by_cases word : i = 0 ∨ text[i - 1]? = some ' '
    · rw [e.firstWord_eq_some (fun j front other => before j front other.1) ⟨here, word⟩]
      exact if_pos word
    · rw [e.firstWord_eq_none fun j other => word (first i j found other).2]
      exact if_neg word

/-- The same for all entries, with what is left to be shown about each line. -/
theorem substituteAll_eq_expandAll (entries : List Entry)
    (first : ∀ before e after, entries = before ++ e :: after →
      e.FirstIsWord (expandAll before text))
    (fits : ∀ n, (expandAll (entries.take n) text).length < 4096) :
    substituteAll entries text = expandAll entries text ∧ Fits entries text := by
  induction entries generalizing text with
  | nil => exact ⟨rfl, True.intro⟩
  | cons e entries ih =>
    have own : e.substitute text = e.expand text := e.substitute_eq_expand (first [] e entries rfl)
    obtain ⟨same, rest⟩ : substituteAll entries (e.expand text) = expandAll entries (e.expand text) ∧
        Fits entries (e.expand text) := ih
      (fun before d after parts => first (e :: before) d after (congrArg (e :: ·) parts))
      fun n => fits (n + 1)
    rw [substituteAll, List.foldl_cons, own, Fits, own]
    exact ⟨same, fits 1, rest⟩

/-! ### The table -/

/-- The entries of `alias.txt` and a line, with all lines on the way within their
arrays. -/
structure AliasTable where
  entries : List Entry
  line : List Char
  small : (fileText entries).length < 40000
  whole : nul ∉ line
  short : line.length < 4095
  fits : ∀ n, (expandAll (entries.take n) (line ++ [' '])).length < 4096

namespace AliasTable
variable (table : AliasTable)

/-- Each entry finds a word at the first place it looks at, if there is one. -/
def FirstWords : Prop :=
  ∀ before e after, table.entries = before ++ e :: after →
    e.FirstIsWord (expandAll before (table.line ++ [' ']))

/-- The line comes back as the entries are to rewrite it. -/
def Expands (s : Scratch) (buf : List Char) : Prop :=
  ∃ bytes, checkForAliases s (some (fileText table.entries)) buf = .ok bytes ∧
    Holds bytes 0 (expandAll table.entries (table.line ++ [' ']))

/-- It does so whatever is in the arrays. The block in which the file is read
begins with a terminator here. -/
def ExpandsAlways : Prop :=
  ∀ (s : Scratch) (buf : List Char), s.str.head? = some nul → Holds buf 0 table.line →
    table.Expands s buf

/-- The first entry looks for a name without an end. -/
theorem step_unended {e : Expansion} (entry : Entry) (size : e.aliasName.length = 100)
    (unended : nul ∉ e.aliasName) (e' : Expansion) : e.step entry.token ≠ .ok e' := by
  intro ran
  have fits := entry.name_fits
  have copied := strncpy_exact e.aliasName entry.name (';' :: entry.comm) (by omega)
  have still : nul ∉ entry.name ++ e.aliasName.drop entry.name.length := by
    rw [List.mem_append, not_or]
    exact ⟨entry.name_plain.1, fun inside => unended (List.mem_of_mem_drop inside)⟩
  have token : entry.token = entry.name ++ ';' :: entry.comm := rfl
  rw [Expansion.step, entry.idxOf_token] at ran
  simp only [ok_bind, token, copied] at ran
  obtain ⟨comm, -, ran⟩ := bind_eq_ok.mp ran
  obtain ⟨comm', -, ran⟩ := bind_eq_ok.mp ran
  obtain ⟨aliasName, joined, -⟩ := bind_eq_ok.mp ran
  rw [strcat, textAt, List.drop_zero, untilNul_unended still] at joined
  cases joined

/-- Arrays in which `alias` has no terminator. -/
def unendedScratch : Scratch where
  buf := List.replicate 4096 nul
  line := List.replicate lineSize nul
  str := List.replicate 40000 nul
  aliasName := List.replicate 100 'x'
  comm := List.replicate 400 nul
  tempBuf := List.replicate 4096 nul
  buffer := List.replicate 4096 nul
  buffer2 := List.replicate 4096 nul
  joined := List.replicate 100 nul
  fresh := fun _ => zeroed
  buf_size := filled_4096
  line_size := List.length_replicate
  str_size := filled_40000
  aliasName_size := filled_100
  comm_size := filled_400
  tempBuf_size := filled_4096
  buffer_size := filled_4096
  buffer2_size := filled_4096
  joined_size := filled_100

theorem unendedScratch_clear : unendedScratch.str.head? = some nul :=
  List.head?_replicate.trans (if_neg (Nat.succ_ne_zero _))

/-- With one entry or more there are arrays for which nothing is returned. -/
theorem not_expands_unended (filled : table.entries ≠ []) (holds : Holds buf 0 table.line) :
    ¬ table.Expands unendedScratch buf := by
  rintro ⟨bytes, ran, -⟩
  obtain ⟨entry, entries, same⟩ := List.exists_cons_of_ne_nil filled
  obtain ⟨aliasFile, read, file⟩ := readFromFile_text unendedScratch.line_size
    unendedScratch.str_size (whole_fileText table.entries) unendedScratch_clear table.small
  have start : (some 0 : Option Nat).or none = some 0 := rfl
  obtain ⟨pch, t, scanned, at_⟩ := strtok_at ['\n'] start file
  rw [words_fileText, same, List.map_cons] at at_
  obtain ⟨first, next, rest, rfl, token, -, -, -⟩ := at_
  rw [checkForAliases, read, ok_bind] at ran
  simp only [scanned, ok_bind, holds.textAt] at ran
  obtain ⟨tempBuf, -, ran⟩ := bind_eq_ok.mp ran
  obtain ⟨tempBuf', -, ran⟩ := bind_eq_ok.mp ran
  obtain ⟨e, looped, -⟩ := bind_eq_ok.mp ran
  rw [expandLoop, token.textAt, ok_bind] at looped
  obtain ⟨e', stepped, -⟩ := bind_eq_ok.mp looped
  refine step_unended entry List.length_replicate (fun inside => ?_) e' stepped
  cases (List.mem_replicate.mp inside).2

/-- Only a table without entries is expanded whatever is in the arrays. With entries
it is enough that their names get longer, that `alias` is zero behind each of them, and
that no name ends a longer word in front of the one that is to be replaced. -/
theorem alias_expansion :
    (table.ExpandsAlways ↔ table.entries = []) ∧
    ∀ (s : Scratch) (buf : List Char), s.str.head? = some nul → Ended s.aliasName table.entries →
      table.FirstWords → Holds buf 0 table.line → table.Expands s buf := by
  have enough : ∀ (s : Scratch) (buf : List Char), s.str.head? = some nul →
      Ended s.aliasName table.entries → table.FirstWords → Holds buf 0 table.line →
        table.Expands s buf := by
    intro s buf clear ended first holds
    obtain ⟨same, fits⟩ := substituteAll_eq_expandAll table.entries first table.fits
    have ran := checkForAliases_text s table.entries table.small clear ended holds table.short fits
    rwa [same] at ran
  refine ⟨⟨fun always => ?_, fun none s buf clear holds => ?_⟩, enough⟩
  · by_contra filled
    have holds : Holds (table.line ++ [nul]) 0 table.line := holds_front table.whole []
    exact table.not_expands_unended filled holds (always _ _ unendedScratch_clear holds)
  · refine enough s buf clear ?_ ?_ holds
    · rw [none]
      exact ⟨.nil, nofun⟩
    · intro before e after parts
      rw [none] at parts
      simp at parts

end AliasTable

/-- `l;ls` -/
def listEntry : Entry where
  name := ['l']
  comm := "ls".toList
  nonempty := by decide
  name_plain := by decide
  comm_plain := by decide
  name_fits := by decide
  comm_fits := by decide

def listTable : AliasTable where
  entries := [listEntry]
  line := ['l']
  small := by decide
  whole := by decide
  short := by decide
  fits n := by
    cases n with
    | zero => decide
    | succ n =>
      rw [List.take_succ_cons, List.take_nil]
      decide

/-- The alias `l` on the line `l`, with no zero in the array `alias`. -/
theorem unended_name_is_lost : ¬ listTable.ExpandsAlways := by
  intro always
  have holds : Holds ['l', nul] 0 listTable.line := holds_front (by decide) []
  exact listTable.not_expands_unended (by decide) holds
    (always _ _ AliasTable.unendedScratch_clear holds)

/-- On `xl l` the code looks at the end of the first word only. -/
example : listEntry.expand "xl l ".toList = "xl ls ".toList ∧
    listEntry.substitute "xl l ".toList = "xl l ".toList := by decide

end Comp304.Shell
