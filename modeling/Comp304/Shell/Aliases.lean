import Comp304.Shell.Program

/-! The aliases of the shell: the file `alias.txt`, the expansion of a line by its
entries, and the command that adds one. Each array is a list of the declared
size, and what is in it at first is part of the input, since the code clears
none. `temp`, which is never read, is left out, and of `process_command` only the
branch for `alias` is there: no other one writes this file. -/
namespace Comp304.Shell
open Library Library.CString

def lineSize : Nat := 2000

/-- What the arrays and blocks hold that one round of `main` uses. -/
structure Scratch where
  buf : List Char
  line : List Char
  str : List Char
  aliasName : List Char
  comm : List Char
  tempBuf : List Char
  buffer : List Char
  buffer2 : List Char
  joined : List Char
  fresh : Nat → Contents
  buf_size : buf.length = 4096
  line_size : line.length = lineSize
  str_size : str.length = 40000
  aliasName_size : aliasName.length = 100
  comm_size : comm.length = 400
  tempBuf_size : tempBuf.length = 4096
  buffer_size : buffer.length = 4096
  buffer2_size : buffer2.length = 4096
  joined_size : joined.length = 100

theorem filled_4096 {c : Char} : (List.replicate 4096 c).length = 4096 := List.length_replicate

theorem filled_40000 {c : Char} : (List.replicate 40000 c).length = 40000 := List.length_replicate

theorem filled_100 {c : Char} : (List.replicate 100 c).length = 100 := List.length_replicate

theorem filled_400 {c : Char} : (List.replicate 400 c).length = 400 := List.length_replicate

/-- What `fgets` reads of the rest of a file, and what it leaves. -/
def fgets (size : Nat) (rest : List Char) : List Char × List Char :=
  match (rest.take (size - 1)).idxOf? '\n' with
  | some i => rest.splitAt (i + 1)
  | none => rest.splitAt (size - 1)

def readLoop : Nat → List Char → List Char → List Char → Except Fault (List Char)
  | 0, _, _, _ => .error .spent
  | _ + 1, _, str, [] => .ok str
  | rounds + 1, line, str, c :: rest => do
    let (chunk, rest) := fgets lineSize (c :: rest)
    let line ← strcpy line 0 chunk
    let text ← textAt line 0
    let str ← strcat str text
    readLoop rounds line str rest

/-- `read_from_file`: the block `str`, unless there is no file. -/
def readFromFile (line str : List Char) (file : Option (List Char)) :
    Except Fault (Option (List Char)) :=
  match file with
  | none => .ok none
  | some text => (readLoop (text.length + 1) line str text).map some

/-- The static arrays of `replace`. -/
structure Statics where
  buffer : List Char
  buffer2 : List Char

/-- Where the line is: in a block of its own, or in `buffer`. -/
inductive Place where
  | block (bytes : List Char)
  | buffer

def Place.bytes (place : Place) (buffer : List Char) : List Char :=
  match place with
  | block bytes => bytes
  | .buffer => buffer

/-- `replace(str, orig, rep, str + loc)` -/
def replace (statics : Statics) (str : Place) (orig rep : List Char) (loc : Nat) :
    Except Fault Statics := do
  let text ← textAt (str.bytes statics.buffer) 0
  let buffer ← strncpy statics.buffer text loc
  let buffer ← write buffer loc nul
  let behind ← textAt (str.bytes buffer) (loc + orig.length)
  let buffer2 ← strcpy statics.buffer2 0 behind
  let behind ← textAt buffer2 0
  let buffer ← strcpy buffer loc (rep ++ behind)
  return ⟨buffer, buffer2⟩

/-- The locals of `check_for_aliases` in its loop. -/
structure Expansion where
  aliasName : List Char
  comm : List Char
  statics : Statics
  tempBuf : Place

def Expansion.bytes (e : Expansion) : List Char := e.tempBuf.bytes e.statics.buffer

/-- One alias&command pair. -/
def Expansion.step (e : Expansion) (token : List Char) : Except Fault Expansion := do
  let index ← match token.idxOf? ';' with
    | some index => .ok index
    | none => .error .null
  let aliasName ← strncpy e.aliasName token index
  let comm ← strcpy e.comm 0 (token.drop (index + 1))
  let comm ← strcat comm [' ']
  let aliasName ← strcat aliasName [' ']
  let orig ← textAt aliasName 0
  let text ← textAt e.bytes 0
  match strstr text orig with
  | none => return ⟨aliasName, comm, e.statics, e.tempBuf⟩
  | some loc =>
    if loc = 0 ∨ text[loc - 1]? = some ' ' then
      let rep ← textAt comm 0
      let statics ← replace e.statics e.tempBuf orig rep loc
      return ⟨aliasName, comm, statics, .buffer⟩
    else return ⟨aliasName, comm, e.statics, e.tempBuf⟩

def expandLoop : Nat → Option Nat → Tokenizer → Expansion → Except Fault Expansion
  | 0, _, _, _ => .error .spent
  | _ + 1, none, _, e => .ok e
  | rounds + 1, some pch, t, e => do
    let token ← textAt t.bytes pch
    let e ← e.step token
    let (pch, t) ← strtok ['\n'] none t
    expandLoop rounds pch t e

/-- The array in which the line is that `check_for_aliases` returns. -/
def checkForAliases (s : Scratch) (file : Option (List Char)) (buf : List Char) :
    Except Fault (List Char) := do
  match ← readFromFile s.line s.str file with
  | none => return buf
  | some aliasFile =>
    let (pch, t) ← strtok ['\n'] (some 0) ⟨aliasFile, none⟩
    let text ← textAt buf 0
    let tempBuf ← strcpy s.tempBuf 0 text
    let tempBuf ← strcat tempBuf [' ']
    let e ← expandLoop (aliasFile.length + 1) pch t
      ⟨s.aliasName, s.comm, ⟨s.buffer, s.buffer2⟩, .block tempBuf⟩
    return e.bytes

/-- What `prompt` makes of a line that has been typed. -/
def prompt (s : Scratch) (file : Option (List Char)) (line : List Char) : Except Fault Command := do
  let buf ← strcpy s.buf 0 line
  let bytes ← checkForAliases s file buf
  let (command, _) ← parseCommand s.fresh (bytes.length + 1) 0 zeroed ⟨⟨bytes, none⟩, 0⟩
  return command

/-- The loop that joins the arguments from `args[i]` on. -/
def joinLoop (argCount : Nat) : Nat → List Char → List (Option (List Char)) →
    Except Fault (List Char)
  | _, comm, [] => .ok comm
  | _, _, none :: _ => .error .null
  | i, comm, some arg :: rest => do
    let comm ←
      if i = 2 then do
        let comm ← strcpy comm 0 arg
        strcat comm [' ']
      else if i ≠ argCount - 1 then do
        let comm ← strcat comm arg
        strcat comm [' ']
      else strcat comm arg
    joinLoop argCount (i + 1) comm rest

/-- What `%s` prints. -/
def printed : Option (List Char) → List Char
  | some text => text
  | none => "(null)".toList

@[simp] theorem printed_some (text : List Char) : printed (some text) = text := rfl

/-- The file after `process_command`. -/
def processCommand (s : Scratch) (file : Option (List Char)) (c : Command) :
    Except Fault (Option (List Char)) :=
  if c.stage.name.text = "alias".toList then do
    let args := c.stage.argv.take c.stage.argCount
    let comm ← joinLoop c.stage.argCount 2 s.joined (args.drop 2)
    let text ← textAt comm 0
    return some (file.getD [] ++ printed (c.stage.argv[1]?.join) ++ ';' :: text ++ ['\n'])
  else .ok file

/-- The file after the lines, each with its own scratch. -/
def enterAll (scratch : Nat → Scratch) : Nat → Option (List Char) → List (List Char) →
    Except Fault (Option (List Char))
  | _, file, [] => .ok file
  | k, file, line :: lines => do
    let c ← prompt (scratch k) file line
    let file ← processCommand (scratch k) file c
    enterAll scratch (k + 1) file lines

end Comp304.Shell
