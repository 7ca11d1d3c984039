import Comp304.Library.Cells
import Mathlib.Data.List.DropRight
import Mathlib.Logic.Function.Basic

/-! The parser of the shell, `parse_command` of `shell-skeleton.c`. It scans one
buffer with `strtok`, whose pointer a nested call shares, and allocates a
`struct command_t` for each pipe. Accesses outside of the buffer, of `temp_buf`
or of an array of the struct are faults. A string that is stored in a block is
kept with the size of the block, since some blocks are a byte too small; what
that does to the heap is left out. -/
namespace Comp304.Shell
open Library Library.CString

def splitters : List Char := [' ', '\t']

/-- `strchr(splitters, c) != NULL`, which also finds the terminator. -/
def inSplitters (c : Char) : Bool := c ∈ splitters ∨ c = nul

/-- A string copied to a block of so many bytes. -/
structure Stored where
  room : Nat
  text : List Char
  deriving DecidableEq, Repr

/-- A copy in a block of `strlen(text) + 1` bytes, such as `strdup` makes. -/
def stored (text : List Char) : Stored := ⟨text.length + 1, text⟩

/-- A pointer member of the struct: the word that is there, `NULL` if zero, until
a string is stored. -/
inductive Slot where
  | word (w : UInt64)
  | text (s : Stored)
  deriving DecidableEq, Repr

/-- The members that describe one stage of a pipeline. A null pointer in `args` is
`none`. -/
structure Stage where
  name : Stored
  argCount : Nat
  args : List (Option Stored)
  redirects : Fin 3 → Slot
  redirectFiles : Fin 3 → Slot
  redirectIdxs : Fin 3 → Int

/-- The strings in `args`. -/
def Stage.argv (s : Stage) : List (Option (List Char)) := s.args.map (Option.map Stored.text)

/-- `struct command_t`. The last `next` of a chain is a word. -/
structure Command where
  background : Bool
  autoComplete : Bool
  stage : Stage
  next : UInt64 ⊕ Command

/-- What is in a `struct command_t` that is passed to `parse_command`, in the
members that it does not always assign, and what the cells of the array for its
arguments hold until they are set. -/
structure Contents where
  background : Bool
  autoComplete : Bool
  redirects : Fin 3 → UInt64
  redirectFiles : Fin 3 → UInt64
  next : UInt64
  unset : Nat → Option Stored

def zeroed : Contents := ⟨false, false, fun _ => 0, fun _ => 0, 0, fun _ => none⟩

/-- The buffer with the pointer of `strtok`, and how many blocks have been
allocated for a `struct command_t`. -/
structure Machine extends Tokenizer where
  structs : Nat

/-- The locals and members that the loop over the tokens changes, and what new cells
of `args` hold. -/
structure Progress where
  args : List (Option Stored)
  argIndex : Nat
  unset : Nat → Option Stored
  redirectIndex : Option (Fin 3)
  redirectionOrder : Nat
  redirects : Fin 3 → Slot
  redirectFiles : Fin 3 → Slot
  redirectIdxs : Fin 3 → Int
  next : UInt64 ⊕ Command

def Progress.start (command : Contents) : Progress where
  args := [command.unset 0]
  argIndex := 0
  unset := command.unset
  redirectIndex := none
  redirectionOrder := 0
  redirects := fun i => .word (command.redirects i)
  redirectFiles := fun i => .word (command.redirectFiles i)
  redirectIdxs := fun _ => -1
  next := .inl command.next

/-- The kind of redirection a token begins with and its length, less one if the
operator has two characters. -/
def operator : List Char → Option (Fin 3 × Nat)
  | '<' :: rest => some (0, rest.length + 1)
  | '>' :: '>' :: rest => some (2, rest.length + 1)
  | '>' :: rest => some (1, rest.length + 1)
  | _ => none

/-- An argument without the quotes around it, in its block of `len + 1` bytes. Only the
closing quote is taken off `len`. -/
def unquote (arg : List Char) : Stored :=
  if 2 < arg.length ∧ (arg.head? = some '\x22' ∧ arg.getLast? = some '\x22' ∨
      arg.head? = some '\'' ∧ arg.getLast? = some '\'') then
    ⟨arg.length, arg.tail.dropLast⟩
  else ⟨arg.length + 1, arg⟩

/-- `command->args[arg_index++]`, in an array that `realloc` makes large enough. -/
def Progress.pass (pr : Progress) (arg : Stored) : Except Fault Progress := do
  let args ← Cells.set (Cells.resize pr.unset (pr.argIndex + 1) pr.args) pr.argIndex (some arg)
  return { pr with args := args, argIndex := pr.argIndex + 1 }

/-- `command->redirects[i]` and `command->redirect_idxs[redirection_order++]` -/
def Progress.redirect (pr : Progress) (i : Fin 3) (len : Nat) (arg : List Char) :
    Except Fault Progress :=
  if inside : pr.redirectionOrder < 3 then
    .ok { pr with
      redirectIndex := some i
      redirectionOrder := pr.redirectionOrder + 1
      redirects := Function.update pr.redirects i (.text ⟨len, arg.tail⟩)
      redirectIdxs := Function.update pr.redirectIdxs ⟨pr.redirectionOrder, inside⟩ i }
  else .error .outside

/-- The loop over the tokens from the copy in `temp_buf` on, pipes apart. -/
def Progress.takeArg (pr : Progress) (arg : List Char) : Except Fault Progress :=
  if arg = [] ∨ arg = ['&'] then .ok pr
  else match operator arg with
    | some (i, len) => pr.redirect i len arg
    | none => pr.pass (unquote arg)

/-- The file name of the redirection before. -/
def Progress.takeFile (pr : Progress) (i : Fin 3) (file : List Char) : Progress :=
  { pr with
    redirectIndex := none
    redirectFiles := Function.update pr.redirectFiles i (.text ⟨file.length, file⟩) }

/-- A token without white space around it. -/
def trim (arg : List Char) : List Char := (arg.dropWhile inSplitters).rdropWhile inSplitters

/-- How many blanks `index` skips. -/
def skipBlanks : List Char → Except Fault Nat
  | [] => .error .outside
  | c :: rest => if c = ' ' ∨ c = '\t' then (skipBlanks rest).map (· + 1) else .ok 0

section
variable (fresh : Nat → Contents) (nested : Nat → Contents → Machine → Except Fault (Command × Machine))

/-- A pipe at `pch`: what follows is parsed into the next block, with the terminator
of the token undone meanwhile. -/
def pipe (pch : Nat) (token : List Char) (m : Machine) : Except Fault (Command × Machine) := do
  let bytes ← write m.bytes (pch + token.length) ' '
  let blanks ← skipBlanks (bytes.drop (pch + 1))
  let (c, m) ← nested (pch + 1 + blanks) (fresh m.structs) ⟨⟨bytes, m.save⟩, m.structs + 1⟩
  let bytes ← write m.bytes (pch + token.length) nul
  return (c, ⟨⟨bytes, m.save⟩, m.structs⟩)

/-- The loop over the tokens behind the name. -/
def tokenLoop : Nat → Progress → Machine → Except Fault (Progress × Machine)
  | 0, _, _ => .error .spent
  | rounds + 1, pr, m => do
    let (pch, t) ← strtok splitters none m.toTokenizer
    let m : Machine := ⟨t, m.structs⟩
    match pr.redirectIndex, pch with
    | some _, none => .error .null
    | some i, some pch =>
      let file ← textAt m.bytes pch
      tokenLoop rounds (pr.takeFile i file) m
    | none, none => .ok (pr, m)
    | none, some pch =>
      let token ← textAt m.bytes pch
      if 1024 ≤ token.length then .error .outside
      else if trim token = ['|'] then
        let (c, m) ← pipe fresh nested pch token m
        tokenLoop rounds { pr with next := .inr c } m
      else
        let pr ← pr.takeArg (trim token)
        tokenLoop rounds pr m

end

/-- Where the string begins without the white space in front, and its length. -/
def trimLeft (bytes : List Char) : Nat → Nat → Except Fault (Nat × Nat)
  | buf, 0 => .ok (buf, 0)
  | buf, len + 1 => do
    let c ← read bytes buf
    if inSplitters c then trimLeft bytes (buf + 1) len else .ok (buf, len + 1)

/-- The bytes and the length without the white space at the end. -/
def trimRight (buf : Nat) : List Char → Nat → Except Fault (List Char × Nat)
  | bytes, 0 => .ok (bytes, 0)
  | bytes, len + 1 => do
    let c ← read bytes (buf + len)
    if inSplitters c then
      let bytes ← write bytes (buf + len) nul
      trimRight buf bytes len
    else .ok (bytes, len + 1)

/-- Whether the last character is the given one. -/
def endsIn (bytes : List Char) (buf len : Nat) (c : Char) : Except Fault Bool :=
  if len = 0 then .ok false else (read bytes (buf + len - 1)).map (· = c)

/-- What is done behind the loop: the array gets two more cells and is moved up by one,
for a copy of the name in front of the arguments and `NULL` behind them. -/
def Progress.stage (pr : Progress) (name : Stored) : Except Fault Stage := do
  let args ← Cells.shift pr.argIndex (Cells.resize pr.unset (pr.argIndex + 2) pr.args)
  let args ← Cells.set args 0 (some (stored name.text))
  let args ← Cells.set args (pr.argIndex + 1) none
  return ⟨name, pr.argIndex + 1, args, pr.redirects, pr.redirectFiles, pr.redirectIdxs⟩

def parseCommand (fresh : Nat → Contents) :
    Nat → Nat → Contents → Machine → Except Fault (Command × Machine)
  | 0, _, _, _ => .error .spent
  | budget + 1, buf, command, m => do
    let text ← textAt m.bytes buf
    let (buf, len) ← trimLeft m.bytes buf text.length
    let (bytes, len) ← trimRight buf m.bytes len
    let autoComplete ← endsIn bytes buf len '?'
    let background ← endsIn bytes buf len '&'
    let (pch, t) ← strtok splitters (some buf) ⟨bytes, m.save⟩
    let name ← match pch with
      | none => .ok (stored [])
      | some pch => (textAt t.bytes pch).map stored
    let (pr, m) ← tokenLoop fresh (parseCommand fresh budget) (budget + 1) (.start command)
      ⟨t, m.structs⟩
    let stage ← pr.stage name
    return (⟨command.background || background, command.autoComplete || autoComplete, stage,
      pr.next⟩, m)

/-- `parse_command` on a line and whatever bytes are behind it in its buffer. -/
def parseLine (fresh : Nat → Contents) (command : Contents) (line after : List Char) :
    Except Fault Command :=
  (parseCommand fresh (line.length + 2) 0 command ⟨⟨line ++ nul :: after, none⟩, 0⟩).map (·.1)

end Comp304.Shell
