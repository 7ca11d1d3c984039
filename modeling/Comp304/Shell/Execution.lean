import Comp304.Shell.Pipelines

/-! What `process_command` does with a line that is not a command of the shell. A child
process carries out the redirections, each kind in the order of its operators but
always with the file that was named last for the kind, and then tries the
directories of `PATH` and the working directory for the program. The working
directory is appended to `PATH` in place, over the variables behind it, and `strtok`
has ended `PATH` behind its first directory when the program starts. Of a pipeline
only the first stage is started. -/
namespace Comp304.Shell
open Library Library.CString Library.Budget

theorem zero_lt_three : 0 < 3 := by decide
theorem one_lt_three : 1 < 3 := by decide
theorem two_lt_three : 2 < 3 := by decide

/-- The flags of a call of `open`. -/
inductive Mode where
  | rdonly
  | creatTrunc
  | creatAppend
  deriving DecidableEq, Repr

/-- The places of `<`, `>` and `>>` in the arrays of the struct. -/
def input : Fin 3 := ⟨0, zero_lt_three⟩
def output : Fin 3 := ⟨1, one_lt_three⟩
def appending : Fin 3 := ⟨2, two_lt_three⟩

/-- What the system calls of the child go by: the file that a path leads to, why a
call of `open` is refused, and which paths `execv` can start. -/
structure Kernel (ι : Type) where
  file : List Char → ι
  refuses : Mode → List Char → Option (List Char)
  starts : List Char → Bool

/-- Where a standard stream leads. -/
inductive Stream (ι : Type) where
  | terminal
  | opened (mode : Mode) (file : ι)

/-- The child, with the contents of the files and what is on the terminal. -/
structure Child (ι : Type) where
  disk : ι → Option (List Char)
  screen : List Char
  stdin : Stream ι
  stdout : Stream ι

/-- Why the redirections are not carried out: a fault, or `exit(1)`. -/
inductive Halt (ι : Type) where
  | fault (fault : Fault)
  | exit (child : Child ι)

section
variable {ι : Type} [DecidableEq ι]

/-- `open`. A file that is not there is made, unless it is to be read. -/
def Kernel.openFile (kernel : Kernel ι) (disk : ι → Option (List Char)) (mode : Mode)
    (path : List Char) : Except (List Char) (ι → Option (List Char)) :=
  match kernel.refuses mode path, mode, disk (kernel.file path) with
  | some reason, _, _ => .error reason
  | none, .rdonly, none => .error "No such file or directory".toList
  | none, .rdonly, some _ => .ok disk
  | none, .creatTrunc, _ => .ok (Function.update disk (kernel.file path) (some []))
  | none, .creatAppend, found => .ok (Function.update disk (kernel.file path) (some (found.getD [])))

/-- What is printed goes behind what the stream holds. -/
def Child.print (child : Child ι) (text : List Char) : Child ι :=
  match child.stdout with
  | .terminal => { child with screen := child.screen ++ text }
  | .opened _ file =>
    { child with disk := Function.update child.disk file (some ((child.disk file).getD [] ++ text)) }

/-- A string argument of `printf`, which writes `(null)` for `NULL`. -/
def shown : Slot → Except Fault (List Char)
  | .text stored => .ok stored.text
  | .word w => if w = 0 then .ok "(null)".toList else .error .outside

/-- `printf("-%s: %s: %s \n", sysname, command->redirects[0], strerror(errno))`, whichever
redirection it is for. -/
def complaint (redirect reason : List Char) : List Char :=
  "-Shellect: ".toList ++ redirect ++ ": ".toList ++ reason ++ " \n".toList

/-- `open(command->redirect_files[k], ...)` and `exit(1)` if it fails. -/
def openRedirect (kernel : Kernel ι) (stage : Stage) (mode : Mode) (k : Fin 3) (child : Child ι) :
    Except (Halt ι) (Child ι × Stream ι) := do
  let fails (reason : List Char) : Except (Halt ι) (Child ι × Stream ι) :=
    match shown (stage.redirects input) with
    | .ok redirect => .error (.exit (child.print (complaint redirect reason)))
    | .error stop => .error (.fault stop)
  match stage.redirectFiles k with
  | .text stored =>
    match kernel.openFile child.disk mode stored.text with
    | .ok disk => .ok ({ child with disk }, .opened mode (kernel.file stored.text))
    | .error reason => fails reason
  | .word w => if w = 0 then fails "Bad address".toList else .error (.fault .outside)

/-- One round of the loop over `redirect_idxs`. -/
def redirectRound (kernel : Kernel ι) (stage : Stage) (child : Child ι) (i : Fin 3) :
    Except (Halt ι) (Child ι) :=
  if stage.redirectIdxs i = 0 then do
    let (child, stream) ← openRedirect kernel stage .rdonly input child
    return { child with stdin := stream }
  else if stage.redirectIdxs i = 1 then do
    let (child, stream) ← openRedirect kernel stage .creatTrunc output child
    return { child with stdout := stream }
  else if stage.redirectIdxs i = 2 then do
    let (child, stream) ← openRedirect kernel stage .creatAppend appending child
    return { child with stdout := stream }
  else .ok child

def redirects (kernel : Kernel ι) (stage : Stage) (child : Child ι) : Except (Halt ι) (Child ι) :=
  (List.finRange 3).foldlM (redirectRound kernel stage) child

end

/-- The block that `getenv("PATH")` points into, with what is behind the variable, and
what `getcwd` returns, `none` if it needs more than 256 bytes. -/
structure Environment where
  bytes : List Char
  path : Nat
  cwd : Option (List Char)
  whole : ∀ dir ∈ cwd, nul ∉ dir

/-- What `execv` puts in place of the child. -/
structure Image (ι : Type) where
  program : List Char
  args : List (Option (List Char))
  environment : List Char
  process : Child ι

/-- What becomes of the child. -/
inductive Fate (ι : Type) where
  | exited (status : Nat) (child : Child ι)
  | running (image : Image ι)

section
variable {ι : Type}

/-- The loop over the directories. -/
def execLoop (kernel : Kernel ι) (stage : Stage) (child : Child ι) :
    Nat → Option Nat → Tokenizer → Except Fault (Fate ι)
  | 0, _, _ => .error .spent
  | rounds + 1, path, t => do
    let (token, t) ← strtok [':'] path t
    match token with
    | none => return .exited 0 child
    | some token =>
      let dir ← textAt t.bytes token
      if kernel.starts (dir ++ '/' :: stage.name.text) then
        return .running ⟨dir ++ '/' :: stage.name.text, stage.argv, t.bytes, child⟩
      else execLoop kernel stage child rounds none t

/-- The environment with the working directory added to `PATH`. -/
def Environment.addCwd (env : Environment) : Except Fault (List Char) :=
  match env.cwd with
  | some cwd => do
    let bytes ← strcatAt env.bytes env.path [':']
    strcatAt bytes env.path cwd
  | none => .ok env.bytes

def exec (kernel : Kernel ι) (env : Environment) (stage : Stage) (child : Child ι) :
    Except Fault (Fate ι) := do
  let bytes ← env.addCwd
  execLoop kernel stage child (bytes.length + 1) (some env.path) ⟨bytes, none⟩

/-- The child process. -/
def runChild [DecidableEq ι] (kernel : Kernel ι) (env : Environment) (stage : Stage)
    (child : Child ι) : Except Fault (Fate ι) :=
  match redirects kernel stage child with
  | .ok child => exec kernel env stage child
  | .error (.exit child) => .ok (.exited 1 child)
  | .error (.fault stop) => .error stop

/-- The names that `process_command` does something else for. After `psvis` there is a
child all the same. -/
def ownCommands : List (List Char) :=
  ["", "exit", "repl", "digital_clock", "cd", "xdd", "alias", "good_morning", "psvis"].map
    String.toList

/-- `parse_command`, and `process_command` for the other names: what becomes of the child. -/
def executeLine [DecidableEq ι] (kernel : Kernel ι) (env : Environment) (fresh : Nat → Contents)
    (line after : List Char) (child : Child ι) : Except Fault (Option (Fate ι)) := do
  let command ← parseLine fresh zeroed line after
  if command.stage.name.text ∈ ownCommands then return none
  else
    let fate ← runChild kernel env command.stage child
    return some fate

end

/-! ### The redirections -/

def modeOf : Fin 3 → Mode
  | 0 => .rdonly
  | 1 => .creatTrunc
  | 2 => .creatAppend

theorem kind_cases (k : Fin 3) : k = input ∨ k = output ∨ k = appending := by
  obtain ⟨k, inside⟩ := k
  simp only [input, output, appending, Fin.mk.injEq]
  omega

@[simp] theorem modeOf_input : modeOf input = .rdonly := rfl
@[simp] theorem modeOf_output : modeOf output = .creatTrunc := rfl
@[simp] theorem modeOf_appending : modeOf appending = .creatAppend := rfl
@[simp] theorem output_ne_input : output ≠ input := by decide
@[simp] theorem appending_ne_input : appending ≠ input := by decide
@[simp] theorem input_ne_output : input ≠ output := by decide
@[simp] theorem input_ne_appending : input ≠ appending := by decide
@[simp] theorem appending_ne_output : appending ≠ output := by decide
@[simp] theorem output_ne_appending : output ≠ appending := by decide

/-- The file that is named last behind operators of the kind. -/
def lastFile (items : List Item) (k : Fin 3) : List Char := (files items k).getLast?.getD []

/-- What `redirects[0]` is printed as. -/
def shownInput (items : List Item) : List Char :=
  if (kinds items).contains input then [] else "(null)".toList

section
variable {ι : Type} [DecidableEq ι]

/-- The operators of some kinds have been carried out, in this order. Only the file named
last by `>` has been emptied, and only the one named last by `>>` made. -/
structure Carried (kernel : Kernel ι) (name : Fin 3 → List Char) (ks : List (Fin 3))
    (child child' : Child ι) : Prop where
  granted : ∀ k ∈ ks, kernel.refuses (modeOf k) (name k) = none
  stdin : child'.stdin =
    if ks.contains input then .opened .rdonly (kernel.file (name input)) else child.stdin
  stdout : child'.stdout = match (ks.filter (· ≠ input)).getLast? with
    | some k => .opened (modeOf k) (kernel.file (name k))
    | none => child.stdout
  disk : ∀ i, child'.disk i =
    if ks.contains output ∧ i = kernel.file (name output) then some []
    else if ks.contains appending ∧ i = kernel.file (name appending) then some ((child.disk i).getD [])
    else child.disk i
  screen : child'.screen = child.screen

/-- One operator. -/
def carry (kernel : Kernel ι) (items : List Item) (child : Child ι) (k : Fin 3) :
    Except (Halt ι) (Child ι) :=
  match kernel.openFile child.disk (modeOf k) (lastFile items k) with
  | .error reason => .error (.exit (child.print (complaint (shownInput items) reason)))
  | .ok disk =>
    let stream := .opened (modeOf k) (kernel.file (lastFile items k))
    .ok (if k = input then { child with disk, stdin := stream } else { child with disk, stdout := stream })

variable {kernel : Kernel ι} {items : List Item} {child mid child' : Child ι} {k : Fin 3}

theorem openFile_ok (opened : kernel.openFile disk mode path = .ok disk') :
    kernel.refuses mode path = none ∧ match mode with
      | .rdonly => disk' = disk ∧ (disk (kernel.file path)).isSome
      | .creatTrunc => disk' = Function.update disk (kernel.file path) (some [])
      | .creatAppend => disk' =
          Function.update disk (kernel.file path) (some ((disk (kernel.file path)).getD [])) := by
  unfold Kernel.openFile at opened
  split at opened
  · cases opened
  · cases opened
  · next granted found =>
    cases opened
    exact ⟨found, rfl, by simp [*]⟩
  · next granted =>
    cases opened
    exact ⟨granted, rfl⟩
  · next granted =>
    cases opened
    exact ⟨granted, rfl⟩

theorem openRedirect_stage (s : StageText) (member : k ∈ kinds s.items) (mode : Mode) :
    openRedirect kernel (s.stage zeroed) mode k child =
      match kernel.openFile child.disk mode (lastFile s.items k) with
      | .ok disk => .ok ({ child with disk }, .opened mode (kernel.file (lastFile s.items k)))
      | .error reason => .error (.exit (child.print (complaint (shownInput s.items) reason))) := by
  have some : files s.items k ≠ [] := (mem_kinds_iff k).mp member
  have last := List.getLast?_eq_some_getLast some
  have stored : (s.stage zeroed).redirectFiles k =
      .text ⟨(lastFile s.items k).length, lastFile s.items k⟩ := by
    simp only [StageText.stage, Progress.staged, progressOf, lastFile, last]
    rfl
  have printed : shown ((s.stage zeroed).redirects input) = .ok (shownInput s.items) := by
    simp only [StageText.stage, Progress.staged, progressOf, shownInput, List.contains_iff_mem]
    split <;> rfl
  simp only [openRedirect, stored, printed]

theorem redirectRound_stage (s : StageText) (child : Child ι) (i : Fin 3) :
    redirectRound kernel (s.stage zeroed) child i =
      match (kinds s.items)[i.val]? with
      | some k => carry kernel s.items child k
      | none => .ok child := by
  cases found : (kinds s.items)[i.val]? with
  | none =>
    have unset : (s.stage zeroed).redirectIdxs i = -1 := by
      simp only [StageText.stage, Progress.staged, progressOf, found]
    simp [redirectRound, unset]
  | some k =>
    have set : (s.stage zeroed).redirectIdxs i = k := by
      simp only [StageText.stage, Progress.staged, progressOf, found]
    have member := List.mem_of_getElem? found
    obtain rfl | rfl | rfl := kind_cases k
    · have zero : (s.stage zeroed).redirectIdxs i = 0 := set
      rw [redirectRound, if_pos zero, openRedirect_stage s member]
      cases opened : kernel.openFile child.disk .rdonly (lastFile s.items input) with
      | ok disk => simp [carry, opened, bind, Except.bind, pure, Except.pure]
      | error reason => simp [carry, opened, bind, Except.bind]
    · have one : (s.stage zeroed).redirectIdxs i = 1 := set
      rw [redirectRound, if_neg (by simp [one]), if_pos one, openRedirect_stage s member]
      cases opened : kernel.openFile child.disk .creatTrunc (lastFile s.items output) with
      | ok disk => simp [carry, opened, bind, Except.bind, pure, Except.pure]
      | error reason => simp [carry, opened, bind, Except.bind]
    · have two : (s.stage zeroed).redirectIdxs i = 2 := set
      rw [redirectRound, if_neg (by simp [two]), if_neg (by simp [two]), if_pos two,
        openRedirect_stage s member]
      cases opened : kernel.openFile child.disk .creatAppend (lastFile s.items appending) with
      | ok disk => simp [carry, opened, bind, Except.bind, pure, Except.pure]
      | error reason => simp [carry, opened, bind, Except.bind]

/-- The loop carries out the operators of the stage in their order. -/
theorem redirects_stage (s : StageText) (child : Child ι) :
    redirects kernel (s.stage zeroed) child = (kinds s.items).foldlM (carry kernel s.items) child := by
  have few := s.few
  have rounds : List.finRange 3 = [0, 1, 2] := by decide
  have ending (ran : Except (Halt ι) (Child ι)) : ran >>= Except.ok = ran := by cases ran <;> rfl
  simp only [redirects, rounds, List.foldlM_cons, List.foldlM_nil, bind_pure, redirectRound_stage]
  rcases same : kinds s.items with _ | ⟨k, _ | ⟨l, _ | ⟨m, _ | ⟨n, ks⟩⟩⟩⟩
  · rfl
  · simp [ending]
  · simp [ending]
  · simp
  · simp only [same, List.length_cons] at few
    omega

theorem carried_nil (child : Child ι) : Carried kernel name [] child child where
  granted := nofun
  stdin := rfl
  stdout := rfl
  disk _ := by simp
  screen := rfl

/-- One operator more. -/
theorem Carried.snoc (carried : Carried kernel (lastFile items) ks child mid)
    (ran : carry kernel items mid k = .ok child') :
    Carried kernel (lastFile items) (ks ++ [k]) child child' := by
  unfold carry at ran
  split at ran
  · cases ran
  next disk opened =>
    obtain ⟨granted, outcome⟩ := openFile_ok opened
    have grants : ∀ j ∈ ks ++ [k], kernel.refuses (modeOf j) (lastFile items j) = none := by
      simp only [List.forall_mem_append, List.forall_mem_singleton]
      exact ⟨carried.granted, granted⟩
    obtain rfl | rfl | rfl := kind_cases k
    · obtain ⟨rfl, -⟩ := outcome
      cases ran
      exact ⟨grants, by simp, by simpa using carried.stdout, by simpa using carried.disk,
        carried.screen⟩
    · have emptied : disk = Function.update mid.disk _ (some []) := outcome
      cases ran
      refine ⟨grants, by simpa using carried.stdin, by simp, fun i => ?_, carried.screen⟩
      rw [if_neg output_ne_input, emptied]
      dsimp only
      by_cases here : i = kernel.file (lastFile items output)
      · simp [here]
      · rw [Function.update_of_ne here, carried.disk i]
        simp [here]
    · have made : disk = Function.update mid.disk _ (some ((mid.disk _).getD [])) := outcome
      cases ran
      refine ⟨grants, by simpa using carried.stdin, by simp, fun i => ?_, carried.screen⟩
      rw [if_neg appending_ne_input, made]
      dsimp only
      by_cases here : i = kernel.file (lastFile items appending)
      · rw [← here, Function.update_self, carried.disk i]
        split_ifs <;> simp_all
      · rw [Function.update_of_ne here, carried.disk i]
        simp [here]

theorem carried_of_ok (ks : List (Fin 3)) (ran : ks.foldlM (carry kernel items) child = .ok child') :
    Carried kernel (lastFile items) ks child child' := by
  induction ks using List.reverseRecOn generalizing child' with
  | nil =>
    cases ran
    exact carried_nil child
  | append_singleton ks k ih =>
    rw [List.foldlM_append] at ran
    obtain ⟨mid, first, last⟩ := bind_eq_ok.mp ran
    rw [List.foldlM_cons] at last
    obtain ⟨next, last, same⟩ := bind_eq_ok.mp last
    cases same
    exact (ih first).snoc last

theorem carry_error {stop : Halt ι} (ran : carry kernel items child k = .error stop) :
    ∃ reason, kernel.openFile child.disk (modeOf k) (lastFile items k) = .error reason ∧
      stop = .exit (child.print (complaint (shownInput items) reason)) := by
  unfold carry at ran
  split at ran
  · next reason refused =>
    cases ran
    exact ⟨reason, refused, rfl⟩
  · cases ran

end

/-! ### The search -/

/-- What `strtok` takes apart: `PATH` and the working directory. -/
def Environment.search (env : Environment) (dirs : List Char) : List Char :=
  match env.cwd with
  | some cwd => dirs ++ ':' :: cwd
  | none => dirs

/-- The outcome of the search in some directories: the first that the program can be
started from, or none. -/
inductive Searched {ι : Type} (kernel : Kernel ι) (stage : Stage) (child : Child ι)
    (dirs : List (List Char)) (handed : List Char → Prop) : Fate ι → Prop
  | started (split : dirs = before ++ dir :: after)
      (passed : ∀ d ∈ before, kernel.starts (d ++ '/' :: stage.name.text) = false)
      (starts : kernel.starts (dir ++ '/' :: stage.name.text) = true) (given : handed bytes) :
      Searched kernel stage child dirs handed
        (.running ⟨dir ++ '/' :: stage.name.text, stage.argv, bytes, child⟩)
  | missing (none : ∀ d ∈ dirs, kernel.starts (d ++ '/' :: stage.name.text) = false) :
      Searched kernel stage child dirs handed (.exited 0 child)

section
variable {ι : Type} {kernel : Kernel ι} {stage : Stage} {child : Child ι}

theorem Searched.cons (fails : kernel.starts (dir ++ '/' :: stage.name.text) = false)
    (searched : Searched kernel stage child dirs handed fate) :
    Searched kernel stage child (dir :: dirs) handed fate := by
  cases searched with
  | @started before found after bytes split passed starts given =>
    have split' : dir :: dirs = (dir :: before) ++ found :: after := by rw [split]; rfl
    exact .started split' (List.forall_mem_cons.mpr ⟨fails, passed⟩) starts given
  | missing none => exact .missing (List.forall_mem_cons.mpr ⟨fails, none⟩)

theorem Searched.mono (searched : Searched kernel stage child dirs handed fate)
    (weaker : ∀ bytes, handed bytes → handed' bytes) :
    Searched kernel stage child dirs handed' fate := by
  cases searched with
  | started split passed starts given => exact .started split passed starts (weaker _ given)
  | missing none => exact .missing none

/-- What the program that is started finds in place of a text that was at the pointer:
the text up to the end of its first word. -/
structure Cut (p : Nat) (text bytes bytes' : List Char) : Prop where
  ended : CString.Ended [':'] p (p + text.length) bytes bytes'
  first : ∀ w ∈ (words [':'] text).head?, Holds bytes' p (text.takeWhile (· ∈ [':']) ++ w)

theorem execLoop_searches (kernel : Kernel ι) (stage : Stage) (child : Child ι)
    {path save : Option Nat} (at_ : path.or save = some p) (spans : Spans bytes p text behind)
    (enough : (words [':'] text).length < rounds) :
    ∃ fate, execLoop kernel stage child rounds path ⟨bytes, save⟩ = .ok fate ∧
      Searched kernel stage child (words [':'] text) (Cut p text bytes) fate := by
  induction rounds generalizing path save p bytes text with
  | zero => omega
  | succ rounds ih =>
    cases found : words [':'] text with
    | nil =>
      refine ⟨.exited 0 child, ?_, .missing (by simp)⟩
      rw [execLoop, strtok_none at_ spans.holds found]
      rfl
    | cons w ws =>
      obtain ⟨first, bytes₁, next, rest, ran, ended, token, later, left, size, front, behindFront⟩ :=
        strtok_ended at_ spans found
      have cut : Cut p text bytes bytes₁ := ⟨ended, by simpa [found] using front⟩
      simp only [execLoop, ran, ok_bind, token.textAt]
      cases starts : kernel.starts (w ++ '/' :: stage.name.text) with
      | true => exact ⟨_, if_pos rfl, .started (List.nil_append _).symm (by simp) starts cut⟩
      | false =>
        obtain ⟨fate, run, searched⟩ := ih Option.none_or later
          (by rw [left]; rw [found, List.length_cons] at enough; omega)
        rw [left] at searched
        have low : rest = [] ∨ p ≤ next := behindFront.imp_right fun low => by omega
        refine ⟨fate, run, (searched.mono fun bytes' given => ⟨?_, ?_⟩).cons starts⟩
        · refine ended.trans (given.ended.weaken ?_ (by omega))
          obtain rfl | low := low
          · rw [List.length_nil] at size
            omega
          · exact low
        · intro v head
          rw [found, List.head?_cons, Option.mem_some_iff] at head
          subst head
          refine front.unchanged fun i _ high => ?_
          obtain same | ⟨⟨later, sooner⟩, -⟩ := given.ended.byte i
          · exact same
          · obtain rfl | apart := behindFront
            · rw [List.length_nil] at sooner
              omega
            · omega

/-- The environment of a program that is started: up to the terminator of the directories
it has been overwritten, and `PATH` is down to its first directory. -/
structure Handed (env : Environment) (dirs : List Char) (bytes : List Char) : Prop where
  size : bytes.length = env.bytes.length
  frame : ∀ i, i < env.path ∨ env.path + (env.search dirs).length < i →
    bytes[i]? = env.bytes[i]?
  overwritten : ∀ i (_ : i < (env.search dirs).length), bytes[env.path + i]? = (env.search dirs)[i]? ∨
    (env.search dirs)[i]? = some ':' ∧ bytes[env.path + i]? = some nul
  first : ∀ w ∈ (words [':'] (env.search dirs)).head?,
    Holds bytes env.path ((env.search dirs).takeWhile (· ∈ [':']) ++ w)

/-- There is room behind `PATH` for the working directory. -/
def Environment.Roomy (env : Environment) (dirs behind : List Char) : Prop :=
  Spans env.bytes env.path dirs behind ∧ ∀ cwd ∈ env.cwd, cwd.length + 1 ≤ behind.length

theorem Environment.Roomy.addCwd {env : Environment} (roomy : env.Roomy dirs behind) :
    ∃ bytes rest, env.addCwd = .ok bytes ∧
      Spans bytes env.path (env.search dirs) rest ∧ bytes.length = env.bytes.length ∧
      ∀ i, i < env.path ∨ env.path + (env.search dirs).length < i → bytes[i]? = env.bytes[i]? := by
  obtain ⟨spans, room⟩ := roomy
  cases inside : env.cwd with
  | none =>
    have same : env.search dirs = dirs := by simp [Environment.search, inside]
    exact ⟨env.bytes, behind, by simp [Environment.addCwd, inside], same.symm ▸ spans, rfl, fun _ _ => rfl⟩
  | some cwd =>
    have enough := room cwd inside
    obtain ⟨bytes, ran, added, size, frame⟩ :=
      spans.strcatAt (by decide : nul ∉ [':']) (by rw [List.length_singleton]; omega)
    obtain ⟨bytes', ran', added', size', frame'⟩ :=
      added.strcatAt (env.whole cwd inside) (by rw [List.length_drop, List.length_singleton]; omega)
    have same : env.search dirs = dirs ++ [':'] ++ cwd := by simp [Environment.search, inside]
    refine ⟨bytes', _, by simp only [Environment.addCwd, inside, ran, ok_bind, ran'], same.symm ▸ added', size'.trans size, ?_⟩
    rw [same]
    intro i outside
    rw [frame' i outside]
    refine frame i (outside.imp_right fun later => ?_)
    rw [List.length_append] at later
    omega

theorem exec_searches (kernel : Kernel ι) (stage : Stage) (child : Child ι) {env : Environment}
    (roomy : env.Roomy dirs behind) :
    ∃ fate, exec kernel env stage child = .ok fate ∧
      Searched kernel stage child (words [':'] (env.search dirs)) (Handed env dirs) fate := by
  obtain ⟨bytes, rest, ran, spans, size, frame⟩ := roomy.addCwd
  have inside := spans.holds.inside
  have few := length_words_le [':'] (env.search dirs)
  obtain ⟨fate, run, searched⟩ := execLoop_searches kernel stage child
    Option.or_none spans (Nat.lt_succ_of_le (few.trans (by omega)) : _ < bytes.length + 1)
  refine ⟨fate, ?_, searched.mono fun bytes' cut => ⟨?_, ?_, ?_, cut.first⟩⟩
  · rw [exec, ran]
    exact run
  · exact cut.ended.length.trans size
  · intro i outside
    obtain same | ⟨between, -⟩ := cut.ended.byte i
    · rw [same, frame i outside]
    · omega
  · intro i inside
    have there : bytes[env.path + i]? = (env.search dirs)[i]? := by
      rw [← List.getElem?_drop, spans.2, List.getElem?_append_left inside]
    obtain same | ⟨-, ⟨d, delim, found⟩, ending⟩ := cut.ended.byte (env.path + i)
    · exact Or.inl (same.trans there)
    · obtain rfl := List.mem_singleton.mp delim
      exact Or.inr ⟨there.symm.trans found, ending⟩

end

/-! ### The line -/

/-- What becomes of the child for a stage: the operators are carried out up to one that is
refused, and the program is looked for when none is. -/
inductive Executed {ι : Type} [DecidableEq ι] (kernel : Kernel ι) (env : Environment)
    (dirs : List Char) (s : StageText) (child : Child ι) : Fate ι → Prop
  | refused (split : kinds s.items = before ++ k :: after)
      (carried : Carried kernel (lastFile s.items) before child mid)
      (reason : kernel.openFile mid.disk (modeOf k) (lastFile s.items k) = .error why) :
      Executed kernel env dirs s child (.exited 1 (mid.print (complaint (shownInput s.items) why)))
  | searched (carried : Carried kernel (lastFile s.items) (kinds s.items) child child')
      (found : Searched kernel (s.stage zeroed) child' (words [':'] (env.search dirs))
        (Handed env dirs) fate) :
      Executed kernel env dirs s child fate

section
variable {ι : Type} [DecidableEq ι]

theorem runChild_executes (kernel : Kernel ι) {env : Environment} (roomy : env.Roomy dirs behind)
    (s : StageText) (child : Child ι) :
    ∃ fate, runChild kernel env (s.stage zeroed) child = .ok fate ∧
      Executed kernel env dirs s child fate := by
  obtain ⟨child', ran⟩ | ⟨before, k, after, mid, stop, split, first, refused, ran⟩ :=
    foldlM_cases (carry kernel s.items) (kinds s.items) child
  · obtain ⟨fate, run, searched⟩ := exec_searches kernel (s.stage zeroed) child' roomy
    refine ⟨fate, ?_, .searched (carried_of_ok _ ran) searched⟩
    rw [runChild, redirects_stage, ran]
    exact run
  · obtain ⟨reason, opened, rfl⟩ := carry_error refused
    refine ⟨_, ?_, .refused split (carried_of_ok _ first) opened⟩
    rw [runChild, redirects_stage, ran]

theorem Chained.first {s : StageText} (chained : Chained fresh n command (s :: later) c) :
    c.stage = s.stage command := by
  cases chained with
  | last stage => exact stage
  | pipe stage => exact stage

/-- A line that is no command of the shell, with pipes or without: its first stage is
executed as it is written, and nothing else of it. -/
theorem line_executed (kernel : Kernel ι) (env : Environment) (roomy : env.Roomy dirs behind)
    (fresh : Nat → Contents) (after : List Char) (child : Child ι) (l : Line)
    (other : l.first.name ∉ ownCommands) :
    ∃ fate, executeLine kernel env fresh l.text after child = .ok (some fate) ∧
      Executed kernel env dirs l.first child fate := by
  obtain ⟨c, parsed, chained⟩ := parseLine_chain fresh after l.first l.later l.spaced
  have stage : c.stage = l.first.stage zeroed := chained.first
  have name : c.stage.name.text = l.first.name := by rw [stage]; rfl
  obtain ⟨fate, run, executed⟩ := runChild_executes kernel roomy l.first child
  refine ⟨fate, ?_, executed⟩
  rw [executeLine, Line.text, Line.stages, parsed, ok_bind, if_neg (name ▸ other), stage, run, ok_bind]
  rfl

end

def copying : StageText where
  text := "cat < in > out ".toList
  name := "cat".toList
  items := [.redirection input "in".toList, .redirection output "out".toList]
  whole := by decide
  spelled := rfl
  noBar := by decide
  short := by decide
  plain := by simp [Item.Plain]
  few := by decide

def copyingCounted : Line where
  first := copying
  later := [counting]
  spaced := .cons_cons ⟨⟨' ', by decide, rfl⟩, ' ', by decide, rfl⟩ (.singleton _)

/-- A machine with `/usr/bin/cat`. -/
def smallKernel : Kernel (List Char) where
  file := id
  refuses _ _ := none
  starts path := path = "/usr/bin/cat".toList

def smallEnvironment : Environment where
  bytes := "PATH=/bin:/usr/bin\x00HOME=/root\x00TERM=linux\x00".toList
  path := 5
  cwd := some "/tmp".toList
  whole := by
    rintro dir ⟨⟩
    decide

def atTerminal : Child (List Char) where
  disk path := if path = "in".toList then some "text".toList else none
  screen := []
  stdin := .terminal
  stdout := .terminal

/-- `cat < in > out | wc -l` -/
theorem line_executed_copying : ∃ image,
    executeLine smallKernel smallEnvironment (fun _ => stale) copyingCounted.text [] atTerminal =
      .ok (some (.running image)) ∧
    image.program = "/usr/bin/cat".toList ∧ textAt image.environment 5 = .ok "/bin".toList ∧
    Executed smallKernel smallEnvironment "/bin:/usr/bin".toList copying atTerminal
      (.running image) := by
  have roomy : smallEnvironment.Roomy "/bin:/usr/bin".toList
      "HOME=/root\x00TERM=linux\x00".toList := by
    refine ⟨⟨by decide, rfl⟩, ?_⟩
    rintro cwd ⟨⟩
    decide
  obtain ⟨fate, ran, executed⟩ := line_executed smallKernel smallEnvironment roomy (fun _ => stale) []
    atTerminal copyingCounted (by decide)
  have value : ∃ image, executeLine smallKernel smallEnvironment (fun _ => stale)
      copyingCounted.text [] atTerminal = .ok (some (.running image)) ∧
      image.program = "/usr/bin/cat".toList ∧
      textAt image.environment 5 = .ok "/bin".toList := ⟨_, rfl, rfl, rfl⟩
  obtain ⟨image, ran', program, environment⟩ := value
  cases ran.symm.trans ran'
  exact ⟨image, ran', program, environment, executed⟩

end Comp304.Shell
