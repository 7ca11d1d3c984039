import Comp304.Library.Json
import Mathlib.Data.List.DropRight

/-! The process tree of `psvis`: the record `mymodule.c` prints for each task,
the line `dmesg` shows for it, and how `plot.py` reads `tree.txt` back. Texts
are lists of characters. Numbers are unbounded, since nothing is computed with
them. -/
namespace Comp304.Psvis
open Library

/-- A `comm` of at most `TASK_COMM_LEN - 1` printable characters. -/
abbrev Comm := {text : List Char // text.length ≤ 15 ∧ ∀ c ∈ text, ' ' ≤ c ∧ c ≤ '~'}

/-- What `dmesg` shows between brackets before a message. -/
abbrev Timestamp := {text : List Char // ']' ∉ text ∧ '\n' ∉ text}

/-- What `dfs` prints for a task. The first branch is the one for the root; those
for other processes and for threads are the same. -/
def recordText (parentPid : Int) (comm : List Char) (pid startTime : Int) : List Char :=
  if parentPid = -1 then
    "\x7b\"ppid\":-1,\"name\": \"".toList ++ comm ++ "\", \"pid\": ".toList ++ Json.decimal pid ++
      ", \"start_time\": ".toList ++ Json.decimal startTime ++ "\x7d\n".toList
  else
    "\x7b\"ppid\":".toList ++ Json.decimal parentPid ++ ",\"name\": \"".toList ++ comm ++
      "\", \"pid\": ".toList ++ Json.decimal pid ++
      ", \"start_time\": ".toList ++ Json.decimal startTime ++ "\x7d\n".toList

/-- A message as `dmesg` shows it. -/
def dmesgLine (timestamp message : List Char) : List Char :=
  '[' :: timestamp ++ "] ".toList ++ message

/-- `re.sub("([\[]).*?([\]])", "", text)`. A bracket that has been opened is held
with what follows it: the first closing one drops all of that, and a newline,
which `.` does not match, or the end of the text lets it stand. -/
def stripBrackets (held : Option (List Char)) : List Char → List Char
  | [] => held.getD []
  | c :: text =>
    match held with
    | none => if c = '[' then stripBrackets (some [c]) text else c :: stripBrackets none text
    | some span =>
      if c = ']' then stripBrackets none text
      else if c = '\n' then span ++ c :: stripBrackets none text
      else stripBrackets (some (span ++ [c])) text

/-- `text.strip(c)` -/
def strip (c : Char) (text : List Char) : List Char :=
  (text.dropWhile (· = c)).rdropWhile (· = c)

/-- How reading `tree.txt` can fail. -/
inductive Failure where
  | indexError
  | jsonDecodeError
  deriving DecidableEq, Repr

/-- One line of `tree.txt`: the node it adds to `tree`, if any. -/
def readLine (line : List Char) : Except Failure (Option Json.Value) :=
  match strip '\n' (strip ' ' (stripBrackets none line)) with
  | [] => .error .indexError
  | c :: rest =>
    if c = '\x7b' then
      match Json.loads (c :: rest) with
      | some node => .ok (some node)
      | none => .error .jsonDecodeError
    else .ok none

/-- The list `tree` after the loop over the lines. -/
def readTree (lines : List (List Char)) : Except Failure (List Json.Value) :=
  lines.foldlM (fun tree line => (readLine line).map fun node => tree ++ node.toList) []

example : stripBrackets none "[ 12.5] a[b]c[d".toList = " ac[d".toList := by decide

end Comp304.Psvis
