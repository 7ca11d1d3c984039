import Comp304.Psvis.RoundTrip
import Comp304.Psvis.Traversal
import Comp304.Psvis.Eldest

/-! `psvis` from end to end. The module prints the tree of a process, the shell
writes what the kernel shows to `tree.txt`, and `plot.py` reads it and draws a
graph. Where the names can be read back and no pid is too low for the numbering,
the graph is the tree that was walked, whatever else the kernel has printed. -/
namespace Comp304.Psvis
open Library Library.Budget Library.Json

/-! ### The messages of the module -/

def Line.text (line : Line) : List Char := recordText line.ppid line.name line.pid line.startTime

/-- `simple_init`, with the task that `get_pid_task` has found: what it prints, and
what it returns. -/
def simpleInit (clock : Nat → Int) (task : Option Process) : List (List Char) × Int :=
  match task with
  | some task =>
    (["Inserting psvis module\n".toList, "System tries to find task with given PID\n".toList,
        "Task is found, listing starts\n".toList] ++ (dfs clock task (-1) []).map Line.text ++
      ["Listing finished\n".toList], 0)
  | none =>
    (["Inserting psvis module\n".toList, "System tries to find task with given PID\n".toList,
      "No task for given pid\n".toList], -1)

/-- What `dmesg` writes to `tree.txt`: the messages in the order in which they were
printed, and between them lines of others that `plot.py` passes over. -/
inductive Dumped : List (List Char) → List (List Char) → Prop where
  | nil : Dumped [] []
  | own (timestamp : Timestamp) : Dumped messages lines →
      Dumped (message :: messages) (dmesgLine timestamp message :: lines)
  | other : readLine line = .ok none → Dumped messages lines → Dumped messages (line :: lines)

/-! ### `main` -/

/-- Why `main` stops. -/
inductive Trouble where
  | reading (failure : Failure)
  | key (error : KeyError)
  | member
  deriving DecidableEq, Repr

/-- A member of a record that is a number. -/
def intMember (record : Value) (key : String) : Except Trouble Int :=
  match record.field (codes key.toList) with
  | some (.scalar (.int n)) => .ok n
  | _ => .error .member

/-- The members of a record that `main` uses. -/
def readNode (record : Value) : Except Trouble Node := do
  let ppid ← intMember record "ppid"
  let pid ← intMember record "pid"
  let startTime ← intMember record "start_time"
  return ⟨ppid, pid, startTime⟩

/-- What the graph is drawn from. -/
structure Drawing where
  vertices : Nat
  edges : List (Int × Int)
  label : List Int
  vertexColor : List String
  deriving DecidableEq, Repr

/-- `visual_style["vertex_color"]` -/
def colors (tree : List Node) (eldest : Dict Int Int) : Except KeyError (List String) :=
  (List.range tree.length).mapM fun (i : Nat) => do
    let pid ← subscript (inverted (nodesOf tree)) (i : Int)
    return if pid ∈ eldest.values then "orange" else "white"

/-- The edges, labels and colors that `main` computes from the records. -/
def compose (tree : List Node) : Except KeyError Drawing := do
  let edges ← addList tree
  let eldest ← eldestChilds tree
  let label ← labels tree
  let vertexColor ← colors tree eldest
  return ⟨tree.length, edges, label, vertexColor⟩

/-- `main`, up to the drawing; without a record it returns before that. -/
def plot (lines : List (List Char)) : Except Trouble (Option Drawing) := do
  let records ← (readTree lines).mapError .reading
  if records.isEmpty then return none
  let tree ← records.mapM readNode
  let drawing ← (compose tree).mapError .key
  return some drawing

/-! ### What the lines are read as -/

/-- The message is read as this record, or passed over, whatever its timestamp. -/
def ReadAs (message : List Char) (record : Option Value) : Prop :=
  ∀ timestamp : Timestamp, readLine (dmesgLine timestamp message) = .ok record

/-- The file is read as the records of the messages. -/
theorem Dumped.read (dumped : Dumped messages lines) (each : List.Forall₂ ReadAs messages records) :
    readTree lines = .ok (records.filterMap id) := by
  have run (tree : List Value) : lines.foldlM (fun tree line => (readLine line).map fun node =>
      tree ++ node.toList) tree = (.ok (tree ++ records.filterMap id) : Except Failure _) := by
    induction dumped generalizing records tree with
    | nil =>
      cases each
      simp
      rfl
    | own timestamp _ ih =>
      cases each with
      | @cons _ record _ records first rest =>
        rw [List.foldlM_cons, first timestamp]
        refine (ih rest _).trans ?_
        cases record <;> simp
    | other skipped _ ih =>
      rw [List.foldlM_cons, skipped]
      refine (ih each _).trans ?_
      simp
  exact run []

/-- The timestamp is stripped with its brackets. -/
theorem stripBrackets_dmesg (timestamp : Timestamp) (message : List Char) :
    stripBrackets none (dmesgLine timestamp message) = stripBrackets none (' ' :: message) := by
  obtain ⟨stamp, close, line⟩ := timestamp
  have start : dmesgLine stamp message = '[' :: (stamp ++ ']' :: ' ' :: message) := by
    simp [dmesgLine]
  rw [start, stripBrackets_outside, if_pos rfl, stripBrackets_span close line]

/-- A message that does not begin with a brace is passed over. -/
theorem passed_over (first : (strip '\n' (strip ' ' (stripBrackets none (' ' :: message)))).head? = some c)
    (other : c ≠ '\x7b') : ReadAs message none := by
  intro timestamp
  obtain ⟨rest, same⟩ := List.head?_eq_some_iff.mp first
  rw [readLine, stripBrackets_dmesg, same]
  exact if_neg other

theorem Line.read (line : Line) (verbatim : Verbatim line.name) :
    ReadAs line.text (some (recordNode line.ppid line.name line.pid line.startTime)) :=
  fun timestamp => readLine_entry ⟨timestamp, line.ppid, line.name, line.pid, line.startTime⟩ verbatim

theorem readNode_record (line : Line) :
    readNode (recordNode line.ppid line.name line.pid line.startTime) = .ok line.node := rfl

/-! ### Labels and colors -/

section
variable {tree : List Node}

theorem subscript_inverted (distinct : (tree.map Node.pid).Nodup) (keep : PidsKeepUp tree)
    {i : Nat} (found : tree[i]? = some node) :
    subscript (inverted (nodesOf tree)) (i : Int) = .ok node.pid := by
  have number := (get?_nodesOf (p := node.pid) distinct keep).mpr ⟨i, node, found, rfl, rfl⟩
  rw [subscript, (get?_inverted distinct).mpr number]

/-- The vertices are labelled with the pids in the order of the records. -/
theorem labels_eq (distinct : (tree.map Node.pid).Nodup) (keep : PidsKeepUp tree) :
    labels tree = .ok (tree.map Node.pid) := by
  have each : ∀ i ∈ List.range tree.length, subscript (inverted (nodesOf tree)) (i : Int) =
      .ok ((tree.map Node.pid).getD i 0) := by
    intro i inside
    have found := List.getElem?_eq_getElem (List.mem_range.mp inside)
    rw [subscript_inverted distinct keep found, List.getD, List.getElem?_map, found]
    rfl
  rw [labels, mapM_ok each]
  refine congrArg _ (List.ext_getElem (by simp) fun i _ inside => ?_)
  simp [List.length_map .. ▸ inside]

/-- And each is orange if its pid is an eldest child. -/
theorem colors_eq (distinct : (tree.map Node.pid).Nodup) (keep : PidsKeepUp tree)
    (eldest : Dict Int Int) : colors tree eldest =
      .ok (tree.map fun node => if node.pid ∈ eldest.values then "orange" else "white") := by
  let color (i : Nat) : String :=
    if (tree.map Node.pid).getD i 0 ∈ eldest.values then "orange" else "white"
  have each : ∀ i ∈ List.range tree.length, (do
      let pid ← subscript (inverted (nodesOf tree)) (i : Int)
      return if pid ∈ eldest.values then "orange" else "white") =
        (.ok (color i) : Except KeyError String) := by
    intro i inside
    have below : i < tree.length := List.mem_range.mp inside
    have found : tree[i]? = some tree[i] := List.getElem?_eq_getElem below
    have label : (tree.map Node.pid).getD i 0 = tree[i].pid := by
      rw [List.getD, List.getElem?_map, found]
      rfl
    rw [subscript_inverted distinct keep found, ok_bind, show color i = _ from rfl]
    simp only [color, label]
    rfl
  rw [colors, mapM_ok each]
  refine congrArg _ (List.ext_getElem (by simp) fun i inside _ => ?_)
  rw [List.length_map, List.length_range] at inside
  simp [color, inside]

/-- The second loop changes the entries of known processes only. -/
theorem eldestStep_keys {times eldest eldest' : Dict Int Int}
    (stepped : eldestStep times eldest node = .ok eldest') (p : Int) :
    p ∈ eldest'.keys ↔ p ∈ eldest.keys := by
  have assigned {eldest : Dict Int Int} {k v : Int} (known : k ∈ eldest.keys) :
      p ∈ (eldest.assign k v).keys ↔ p ∈ eldest.keys := by
    rw [Dict.mem_keys_assign]
    exact or_iff_right_of_imp fun same => same ▸ known
  unfold eldestStep at stepped
  split at stepped
  · obtain ⟨curEd, found, stepped⟩ := bind_eq_ok.mp stepped
    have known : node.ppid ∈ eldest.keys := by
      rw [← Dict.get?_isSome_iff]
      unfold subscript at found
      split at found
      · next same => simp [same]
      · cases found
    split at stepped
    · cases stepped
      exact assigned known
    · obtain ⟨curSt, -, stepped⟩ := bind_eq_ok.mp stepped
      obtain ⟨start, -, stepped⟩ := bind_eq_ok.mp stepped
      split at stepped
      · cases stepped
        exact assigned known
      · cases stepped
        exact Iff.rfl
  · cases stepped
    exact Iff.rfl

theorem eldestChilds_keys {eldest : Dict Int Int} (ran : eldestChilds tree = .ok eldest)
    (known : p ∈ eldest.keys) : p ∈ tree.map Node.pid := by
  have loop : ∀ (rest : List Node) (before after : Dict Int Int),
      rest.foldlM (eldestStep (startTimes tree)) before = .ok after →
        (p ∈ after.keys ↔ p ∈ before.keys) := by
    intro rest
    induction rest with
    | nil =>
      intro before after ran
      cases ran
      exact Iff.rfl
    | cons node rest ih =>
      intro before after ran
      rw [List.foldlM_cons] at ran
      obtain ⟨middle, first, later⟩ := bind_eq_ok.mp ran
      exact (ih _ _ later).trans (eldestStep_keys first p)
  have start : ∀ (front : List Node) (d : Dict Int Int),
      p ∈ (front.foldl (fun eldest node => eldest.assign node.pid (-1)) d).keys ↔
        p ∈ front.map Node.pid ∨ p ∈ d.keys := by
    intro front
    induction front with
    | nil => simp
    | cons node front ih =>
      intro d
      rw [List.foldl_cons, ih, Dict.mem_keys_assign, List.map_cons, List.mem_cons]
      tauto
  have filled := (start tree .empty).mp ((loop tree _ _ ran).mp known)
  exact filled.resolve_right List.not_mem_nil

/-- Some child is picked if there is one. -/
theorem foldl_pick_mem {siblings : List Node} (start : Int) (nonempty : siblings ≠ []) :
    siblings.foldl (pick start) (-1) ∈ siblings.map Node.pid := by
  induction siblings using List.reverseRecOn with
  | nil => exact absurd rfl nonempty
  | append_singleton siblings d ih =>
    rw [List.foldl_append, List.foldl_cons, List.foldl_nil, List.map_append]
    unfold pick
    split
    · exact List.mem_append_right _ List.mem_cons_self
    · next kept =>
      refine List.mem_append_left _ (ih ?_)
      rintro rfl
      exact kept (Or.inl rfl)

end

/-! ### What is above what -/

def Process.children : Process → List Process
  | .mk _ children _ => children

/-- The first is the leader of a process that the walk visits, and the second another
thread of it or a process that it forked. -/
def Above (root : Process) (p q : Int) : Prop :=
  ∃ process ∈ root.visited, process.leader.pid = p ∧
    ((∃ thread ∈ process.threads, thread.task.pid = q) ∨
      ∃ child ∈ process.children, child.leader.pid = q)

theorem above_mk {leader : Task} {children : List Process} {threads : List Thread} :
    Above (.mk leader children threads) p q ↔
      (leader.pid = p ∧ ((∃ thread ∈ threads, thread.task.pid = q) ∨
        ∃ child ∈ children, child.leader.pid = q)) ∨ ∃ child ∈ children, Above child p q := by
  simp only [Above, Process.visited_mk, List.mem_cons, exists_eq_or_imp, List.mem_flatMap]
  refine or_congr Iff.rfl ⟨?_, ?_⟩
  · rintro ⟨process, ⟨child, listed, inside⟩, found⟩
    exact ⟨child, listed, process, inside, found⟩
  · rintro ⟨child, listed, process, inside, found⟩
    exact ⟨process, ⟨child, listed, inside⟩, found⟩

/-- A line with this ppid and this pid. -/
def Links (log : List Line) (p q : Int) : Prop := ∃ line ∈ log, line.ppid = p ∧ line.pid = q

section
variable {clock : Nat → Int} {log : List Line}

theorem links_printLine : Links (printLine clock log ppid name pid startTime) p q ↔
    Links log p q ∨ ppid = p ∧ pid = q := by
  simp [Links, printLine, or_and_right, exists_or]

theorem links_printThreads (task : Task) (threads : List Task) :
    Links (printThreads clock task log threads) p q ↔ Links log p q ∨
      task.pid = p ∧ ∃ thread ∈ threads, thread.pid ≠ task.pid ∧ thread.pid = q := by
  induction threads generalizing log with
  | nil => simp [printThreads]
  | cons thread threads ih =>
    rw [printThreads, List.foldl_cons, ← printThreads, ih]
    simp only [List.mem_cons, exists_eq_or_imp]
    split
    · next other =>
      rw [links_printLine]
      tauto
    · next own => tauto

theorem links_dfsEach {children : List Process}
    (each : ∀ child ∈ children, ∀ log, Links (dfs clock child parentPid log) p q ↔
      Links log p q ∨ (parentPid = p ∧ child.leader.pid = q) ∨ Above child p q) :
    Links (dfsEach clock children parentPid log) p q ↔ Links log p q ∨
      (parentPid = p ∧ ∃ child ∈ children, child.leader.pid = q) ∨
        ∃ child ∈ children, Above child p q := by
  induction children generalizing log with
  | nil => simp [dfsEach]
  | cons child children ih =>
    obtain ⟨first, each⟩ := List.forall_mem_cons.mp each
    rw [dfsEach_cons, ih each, first]
    simp only [List.mem_cons, exists_eq_or_imp, and_or_left, or_assoc]
    exact or_congr_right (or_congr_right or_left_comm)

/-- The walk prints a line for each pair, and one for the process itself. -/
theorem links_dfs (process : Process)
    (apart : ∀ p ∈ process.visited, ∀ thread ∈ p.threads, thread.task.pid ≠ p.leader.pid) :
    Links (dfs clock process parentPid log) p q ↔ Links log p q ∨
      (parentPid = p ∧ process.leader.pid = q) ∨ Above process p q := by
  induction process using Process.descend generalizing log parentPid with
  | step leader children threads ih _ =>
    rw [Process.visited_mk, List.forall_mem_cons] at apart
    obtain ⟨own, apart⟩ := apart
    have others : (∃ task ∈ leader :: threads.map Thread.task, task.pid ≠ leader.pid ∧ task.pid = q) ↔
        ∃ thread ∈ threads, thread.task.pid = q := by
      simp only [List.mem_cons, exists_eq_or_imp, ne_eq, not_true_eq_false, false_and, false_or,
        List.mem_map, exists_exists_and_eq_and]
      exact exists_congr fun thread => and_congr_right fun inside =>
        and_iff_right (own thread inside)
    rw [dfs_mk, links_dfsEach fun child member log => ih child member fun p inside =>
      apart p (List.mem_flatMap.mpr ⟨child, member, inside⟩), links_printThreads, links_printLine,
      above_mk, others, Process.leader]
    simp only [and_or_left, or_assoc]

/-- The name in a line is that of a task. -/
def NamedAfter (processes : List Process) (line : Line) : Prop :=
  ∃ process ∈ processes, ∃ task ∈ process.tasks, line.name = task.comm

theorem printThreads_names (task : Task) {threads : List Task}
    (inside : line ∈ printThreads clock task log threads) :
    line ∈ log ∨ ∃ thread ∈ threads, line.name = thread.comm := by
  induction threads generalizing log with
  | nil => exact Or.inl inside
  | cons thread threads ih =>
    rw [printThreads, List.foldl_cons, ← printThreads] at inside
    obtain before | ⟨other, listed, named⟩ := ih inside
    · split at before
      · obtain before | last := List.mem_append.mp before
        · exact Or.inl before
        · exact Or.inr ⟨thread, List.mem_cons_self, by rw [List.mem_singleton.mp last]⟩
      · exact Or.inl before
    · exact Or.inr ⟨other, List.mem_cons_of_mem _ listed, named⟩

theorem dfsEach_names {children : List Process}
    (each : ∀ child ∈ children, ∀ log, line ∈ dfs clock child parentPid log →
      line ∈ log ∨ NamedAfter child.visited line)
    (inside : line ∈ dfsEach clock children parentPid log) :
    line ∈ log ∨ NamedAfter (children.flatMap Process.visited) line := by
  induction children generalizing log with
  | nil => exact Or.inl inside
  | cons child children ih =>
    obtain ⟨first, each⟩ := List.forall_mem_cons.mp each
    rw [dfsEach_cons] at inside
    rw [List.flatMap_cons]
    obtain before | ⟨process, listed, named⟩ := ih each inside
    · obtain before | ⟨process, listed, named⟩ := first _ before
      · exact Or.inl before
      · exact Or.inr ⟨process, List.mem_append_left _ listed, named⟩
    · exact Or.inr ⟨process, List.mem_append_right _ listed, named⟩

theorem dfs_names (process : Process) (inside : line ∈ dfs clock process parentPid log) :
    line ∈ log ∨ NamedAfter process.visited line := by
  induction process using Process.descend generalizing log parentPid with
  | step leader children threads ih _ =>
    rw [dfs_mk] at inside
    rw [Process.visited_mk]
    obtain before | ⟨process, listed, named⟩ := dfsEach_names
      (fun child member log inside => ih child member inside) inside
    · obtain before | ⟨task, listed, named⟩ := printThreads_names leader before
      · obtain before | last := List.mem_append.mp before
        · exact Or.inl before
        · refine Or.inr ⟨_, List.mem_cons_self, leader, List.mem_cons_self, ?_⟩
          rw [List.mem_singleton.mp last]
      · exact Or.inr ⟨_, List.mem_cons_self, task, listed, named⟩
    · exact Or.inr ⟨process, List.mem_cons_of_mem _ listed, named⟩

end

/-! ### The picture -/

/-- The vertex of this pid is drawn in orange. -/
def Drawing.Orange (drawing : Drawing) (q : Int) : Prop :=
  ∃ i : Nat, drawing.label[i]? = some q ∧ drawing.vertexColor[i]? = some "orange"

/-- The graph is the tree below the process: a vertex for each task, an edge for each
task but the first to the one above it, and in orange one of those below each task
that has any below it. -/
structure Draws (root : Process) (drawing : Drawing) : Prop where
  label : drawing.label = pidsOf root.visited
  vertices : drawing.vertices = drawing.label.length
  edges : ∀ p q, (∃ i j : Nat, ((i : Int), (j : Int)) ∈ drawing.edges ∧
    drawing.label[i]? = some p ∧ drawing.label[j]? = some q) ↔ Above root p q
  many : drawing.edges.length + 1 = drawing.vertices
  orange : ∀ p, (∃ q, Above root p q) → ∃! q, Above root p q ∧ drawing.Orange q
  below : ∀ q, drawing.Orange q → ∃ p, Above root p q

/-- Each pid is at least its position in the listing. -/
def PidsHigh (root : Process) : Prop :=
  ∀ (i : Nat) pid, (pidsOf root.visited)[i]? = some pid → (i : Int) ≤ pid

namespace Population
variable (population : Population) (clock : Nat → Int)

/-- The records of the listing. -/
def recorded : List Node := (dfs clock population.root (-1) []).map Line.node

theorem recorded_pids : (population.recorded clock).map Node.pid = pidsOf population.root.visited := by
  rw [recorded, List.map_map]
  exact population.dfs_pids clock

theorem recorded_distinct : ((population.recorded clock).map Node.pid).Nodup :=
  population.recorded_pids clock ▸ population.visited_distinct

variable {population}

theorem nonneg_of_high (high : PidsHigh population.root) :
    ∀ pid ∈ pidsOf population.root.visited, 0 ≤ pid := by
  intro pid member
  obtain ⟨i, found⟩ := List.mem_iff_getElem?.mp member
  have low := high i pid found
  omega

theorem recorded_keeps_up (high : PidsHigh population.root) :
    PidsKeepUp (population.recorded clock) := by
  intro i node found
  refine high i node.pid ?_
  rw [← population.recorded_pids clock, List.getElem?_map, found]
  rfl

/-- The parent of a record is above it, and whatever is above has such a record. -/
theorem above_iff_recorded (high : PidsHigh population.root) : Above population.root p q ↔
    ∃ node ∈ population.recorded clock, node.ppid ≠ -1 ∧ node.ppid = p ∧ node.pid = q := by
  have nonneg := nonneg_of_high high
  have apart : ∀ process ∈ population.root.visited, ∀ thread ∈ process.threads,
      thread.task.pid ≠ process.leader.pid := by
    intro process member thread inside same
    have own := (List.nodup_flatMap.mp population.visited_distinct).1 process member
    rw [Process.tasks, List.map_cons, List.nodup_cons] at own
    exact own.1 (same ▸ List.mem_map_of_mem (List.mem_map_of_mem inside))
  have links : Links (dfs clock population.root (-1) []) p q ↔ Links [] p q ∨
      (-1 = p ∧ population.root.leader.pid = q) ∨ Above population.root p q :=
    links_dfs population.root apart
  have known : Above population.root p q → p ≠ -1 := by
    rintro ⟨process, member, rfl, -⟩
    have low := nonneg _ (mem_pidsOf.mpr ⟨process, member, Or.inl rfl⟩)
    omega
  constructor
  · intro above
    obtain ⟨line, listed, rfl, rfl⟩ := links.mpr (Or.inr (Or.inr above))
    exact ⟨line.node, List.mem_map_of_mem listed, known above, rfl, rfl⟩
  · rintro ⟨_, listed, child, rfl, rfl⟩
    obtain ⟨line, inside, rfl⟩ := List.mem_map.mp listed
    obtain ⟨_, none, -⟩ | ⟨first, -⟩ | above := links.mp ⟨line, inside, rfl, rfl⟩
    · cases none
    · exact absurd first.symm child
    · exact above

theorem ppid_recorded (high : PidsHigh population.root) : ∀ node ∈ population.recorded clock,
    node.ppid ≠ -1 → node.ppid ∈ (population.recorded clock).map Node.pid :=
  fun _ => (population.listing clock (nonneg_of_high high)).ppid_known

/-- The number of a pid is its position. -/
theorem label_iff (high : PidsHigh population.root) {i : Nat} :
    (pidsOf population.root.visited)[i]? = some p ↔
      p ∈ (population.recorded clock).map Node.pid ∧ indexOf (population.recorded clock) p = i := by
  have number (p : Int) (x : Int) := @get?_nodesOf _ p x
    (population.recorded_distinct clock) (recorded_keeps_up clock high)
  rw [← population.recorded_pids clock, List.getElem?_map, Option.map_eq_some_iff]
  constructor
  · rintro ⟨node, found, rfl⟩
    have given := (number node.pid i).mpr ⟨i, node, found, rfl, rfl⟩
    exact ⟨List.mem_map_of_mem (List.mem_of_getElem? found), by rw [indexOf, given]; rfl⟩
  · rintro ⟨known, same⟩
    have given := get?_indexOf (population.recorded_distinct clock) (recorded_keeps_up clock high) known
    rw [same] at given
    obtain ⟨j, node, found, rfl, there⟩ := (number p i).mp given
    obtain rfl := Int.ofNat.inj there
    exact ⟨node, found, rfl⟩

/-- The edges are those between each task and the one above it. -/
theorem edges_above (high : PidsHigh population.root) :
    (∃ i j : Nat, ((i : Int), (j : Int)) ∈ ((population.recorded clock).filter (·.ppid ≠ -1)).map
        (fun node => (indexOf (population.recorded clock) node.ppid,
          indexOf (population.recorded clock) node.pid)) ∧
      (pidsOf population.root.visited)[i]? = some p ∧ (pidsOf population.root.visited)[j]? = some q) ↔
    Above population.root p q := by
  have distinct := population.recorded_distinct clock
  rw [above_iff_recorded clock high]
  simp only [List.mem_map, List.mem_filter, decide_eq_true_eq, Prod.mk.injEq]
  constructor
  · rintro ⟨i, j, ⟨node, ⟨listed, child⟩, parent, own⟩, atP, atQ⟩
    have here {x : Int} {n : Nat} (known : x ∈ (population.recorded clock).map Node.pid)
        (same : indexOf (population.recorded clock) x = n) :
        (pidsOf population.root.visited)[n]? = some x := (label_iff clock high).mpr ⟨known, same⟩
    have first := here (ppid_recorded clock high node listed child) parent
    have second := here (List.mem_map_of_mem listed) own
    exact ⟨node, listed, child, Option.some.inj (first.symm.trans atP),
      Option.some.inj (second.symm.trans atQ)⟩
  · rintro ⟨node, listed, child, rfl, rfl⟩
    have here {x : Int} (known : x ∈ (population.recorded clock).map Node.pid) :
        ∃ n : Nat, indexOf (population.recorded clock) x = n := by
      have given := get?_indexOf distinct (recorded_keeps_up clock high) known
      obtain ⟨n, -, -, -, same⟩ := (get?_nodesOf distinct (recorded_keeps_up clock high)).mp given
      exact ⟨n, same.symm⟩
    have parent := ppid_recorded clock high node listed child
    have own : node.pid ∈ (population.recorded clock).map Node.pid := List.mem_map_of_mem listed
    obtain ⟨i, atP⟩ := here parent
    obtain ⟨j, atQ⟩ := here own
    exact ⟨i, j, ⟨node, ⟨listed, child⟩, atP, atQ⟩, (label_iff clock high).mpr ⟨parent, atP⟩,
      (label_iff clock high).mpr ⟨own, atQ⟩⟩

/-- The entry of a task with others below it is one of them, and no other task is in
an entry. -/
theorem eldest_above (high : PidsHigh population.root) :
    ∃ eldest, eldestChilds (population.recorded clock) = .ok eldest ∧
      (∀ p, (∃ q, Above population.root p q) →
        ∃! q, Above population.root p q ∧ q ∈ eldest.values) ∧
      ∀ q ∈ eldest.values, 0 ≤ q → ∃ p, Above population.root p q := by
  have distinct := population.recorded_distinct clock
  have above (p q : Int) : Above population.root p q ↔ _ := above_iff_recorded clock high
  obtain ⟨eldest, ran, entries⟩ :=
    eldest_loop ⟨_, distinct, ppid_recorded clock high⟩ (population.recorded clock) (List.Subset.refl _)
  dsimp only at ran entries
  -- an entry that is not -1 is the pid of a task below the one it belongs to
  have entry : ∀ q ∈ eldest.values, 0 ≤ q → ∃ parent ∈ population.recorded clock,
      eldest.get? parent.pid = some q ∧ Above population.root parent.pid q := by
    intro q member positive
    obtain ⟨⟨k, _⟩, listed, rfl⟩ := List.mem_map.mp member
    have found := Dict.get?_eq_some_iff.mpr listed
    have known : k ∈ eldest.keys := List.mem_map_of_mem listed
    obtain ⟨parent, there, rfl⟩ := List.mem_map.mp (eldestChilds_keys ran known)
    refine ⟨parent, there, found, ?_⟩
    have picked := Option.some.inj ((entries parent there).symm.trans found)
    by_cases none : children (population.recorded clock) parent.pid = []
    · rw [none, List.foldl_nil] at picked
      simp only at positive picked
      omega
    · obtain ⟨c, own, same⟩ := List.mem_map.mp (foldl_pick_mem parent.startTime none)
      have child := List.mem_filter.mp own
      simp only [decide_eq_true_eq] at child
      exact (above _ _).mpr ⟨c, child.1, child.2.2, child.2.1, same.trans picked⟩
  refine ⟨eldest, ran, fun p some => ?_, fun q member positive => ?_⟩
  · obtain ⟨q, node, listed, child, rfl, -⟩ := (exists_congr fun q => above p q).mp some
    obtain ⟨parent, there, same⟩ := List.mem_map.mp (ppid_recorded clock high node listed child)
    have nonempty : children (population.recorded clock) parent.pid ≠ [] := by
      refine List.ne_nil_of_mem (List.mem_filter.mpr ⟨listed, decide_eq_true ⟨same.symm, child⟩⟩)
    obtain ⟨c, own, picked⟩ := List.mem_map.mp (foldl_pick_mem parent.startTime nonempty)
    have below := List.mem_filter.mp own
    simp only [decide_eq_true_eq] at below
    have found := entries parent there
    rw [← picked] at found
    have aboveC : Above population.root node.ppid c.pid :=
      (above _ _).mpr ⟨c, below.1, below.2.2, below.2.1.trans same, rfl⟩
    refine ⟨c.pid, ⟨aboveC, List.mem_map_of_mem (Dict.get?_eq_some_iff.mp found)⟩, ?_⟩
    rintro q ⟨aboveQ, member⟩
    obtain ⟨one, listed', -, first, rfl⟩ := (above _ _).mp aboveQ
    have positive : 0 ≤ one.pid := by
      refine nonneg_of_high high _ ?_
      rw [← population.recorded_pids clock]
      exact List.mem_map_of_mem listed'
    obtain ⟨parent', there', found', aboveQ'⟩ := entry one.pid member positive
    -- a task is below one other task only, so both entries belong to the same one
    obtain ⟨two, listed'', -, second, pid⟩ := (above _ _).mp aboveQ'
    obtain rfl := eq_of_pid distinct listed'' listed' pid
    obtain rfl := eq_of_pid distinct there' there (second.symm.trans (first.trans same.symm))
    exact Option.some.inj (found'.symm.trans found)
  · obtain ⟨parent, -, -, above⟩ := entry q member positive
    exact ⟨parent.pid, above⟩

/-- What `main` computes from the records. -/
theorem composed (high : PidsHigh population.root) : ∃ drawing,
    compose (population.recorded clock) = .ok drawing ∧ Draws population.root drawing := by
  have distinct := population.recorded_distinct clock
  have keep := recorded_keeps_up clock high
  have pids := population.recorded_pids clock
  obtain ⟨eldest, ran, one, below⟩ := eldest_above clock high
  have tail := (population.listing clock (nonneg_of_high high)).filter_ppid
  have first := (grows_behind clock population.root (-1) []).1.length_le
  have orange : ∀ q, (∃ i : Nat, ((population.recorded clock).map Node.pid)[i]? = some q ∧
      ((population.recorded clock).map fun node =>
        if node.pid ∈ eldest.values then "orange" else "white")[i]? = some "orange") ↔
      q ∈ pidsOf population.root.visited ∧ q ∈ eldest.values := by
    intro q
    simp only [← pids, List.getElem?_map, Option.map_eq_some_iff]
    constructor
    · rintro ⟨i, ⟨node, found, rfl⟩, node', found', color⟩
      cases Option.some.inj (found.symm.trans found')
      refine ⟨List.mem_map_of_mem (List.mem_of_getElem? found), ?_⟩
      by_contra missing
      simp [missing] at color
    · rintro ⟨listed, member⟩
      obtain ⟨node, inside, rfl⟩ := List.mem_map.mp listed
      obtain ⟨i, found⟩ := List.mem_iff_getElem?.mp inside
      exact ⟨i, ⟨node, found, rfl⟩, node, found, if_pos member⟩
  have made : compose (population.recorded clock) = .ok ⟨(population.recorded clock).length,
      ((population.recorded clock).filter (·.ppid ≠ -1)).map fun node =>
        (indexOf (population.recorded clock) node.ppid, indexOf (population.recorded clock) node.pid),
      (population.recorded clock).map Node.pid,
      (population.recorded clock).map fun node =>
        if node.pid ∈ eldest.values then "orange" else "white"⟩ := by
    simp only [compose, addList_eq distinct keep (ppid_recorded clock high), ran, labels_eq distinct keep,
      colors_eq distinct keep, ok_bind]
    rfl
  refine ⟨_, made, pids, (List.length_map _).symm, fun p q => ?_, ?_, fun p some => ?_, fun q shown => ?_⟩
  · simp only [pids]
    exact edges_above clock high
  · have records : (population.recorded clock).filter (·.ppid ≠ -1) =
        (population.recorded clock).tail := tail
    have several : 0 < (population.recorded clock).length := by
      rw [recorded, List.length_map]
      exact Nat.lt_of_lt_of_le (by simp [printLine]) first
    simp only [records, List.length_map, List.length_tail]
    omega
  · obtain ⟨q, ⟨above, member⟩, only⟩ := one p some
    have known : ∀ r, Above population.root p r → r ∈ pidsOf population.root.visited := by
      intro r above
      obtain ⟨node, listed, -, -, rfl⟩ := (above_iff_recorded clock high).mp above
      exact pids ▸ List.mem_map_of_mem listed
    refine ⟨q, ⟨above, (orange q).mpr ⟨known q above, member⟩⟩, ?_⟩
    rintro r ⟨above', shown⟩
    exact only r ⟨above', ((orange r).mp shown).2⟩
  · obtain ⟨listed, member⟩ := (orange q).mp shown
    exact below q member (nonneg_of_high high q listed)

/-- The file is read as the records of the listing. -/
theorem listing_read
    (names : ∀ process ∈ population.root.visited, ∀ task ∈ process.tasks, Verbatim task.comm)
    (dumped : Dumped (simpleInit clock (some population.root)).1 lines) :
    readTree lines = .ok ((dfs clock population.root (-1) []).map fun line =>
      recordNode line.ppid line.name line.pid line.startTime) := by
  have texts : List.Forall₂ ReadAs ((dfs clock population.root (-1) []).map Line.text)
      ((dfs clock population.root (-1) []).map fun line =>
        some (recordNode line.ppid line.name line.pid line.startTime)) := by
    rw [List.forall₂_map_left_iff, List.forall₂_map_right_iff, List.forall₂_same]
    intro line listed
    obtain none | ⟨process, member, task, own, same⟩ := dfs_names population.root listed
    · cases none
    · exact line.read (same ▸ names process member task own)
  have first : ReadAs "Inserting psvis module\n".toList none := @passed_over _ 'I' (by decide) (by decide)
  have second : ReadAs "System tries to find task with given PID\n".toList none :=
    @passed_over _ 'S' (by decide) (by decide)
  have third : ReadAs "Task is found, listing starts\n".toList none :=
    @passed_over _ 'T' (by decide) (by decide)
  have last : ReadAs "Listing finished\n".toList none := @passed_over _ 'L' (by decide) (by decide)
  have each := List.rel_append (.cons first (.cons second (.cons third texts))) (.cons last .nil)
  rw [dumped.read each]
  simp [List.filterMap_map]

/-- From the tree of a process to the same tree as a graph. -/
theorem drawn (high : PidsHigh population.root)
    (names : ∀ process ∈ population.root.visited, ∀ task ∈ process.tasks, Verbatim task.comm)
    (dumped : Dumped (simpleInit clock (some population.root)).1 lines) :
    ∃ drawing, plot lines = .ok (some drawing) ∧ Draws population.root drawing := by
  obtain ⟨drawing, made, draws⟩ := composed clock high
  have first := (grows_behind clock population.root (-1) []).1.length_le
  refine ⟨drawing, ?_, draws⟩
  have several : ((dfs clock population.root (-1) []).map fun line =>
      recordNode line.ppid line.name line.pid line.startTime).isEmpty = false := by
    rw [List.isEmpty_eq_false_iff, ne_eq, List.map_eq_nil_iff]
    intro none
    simp [none, printLine] at first
  have nodes : ((dfs clock population.root (-1) []).map fun line =>
      recordNode line.ppid line.name line.pid line.startTime).mapM readNode =
        .ok (population.recorded clock) := by
    rw [List.mapM_map]
    exact mapM_ok fun line _ => readNode_record line
  simp only [plot, listing_read clock names dumped, Except.mapError, ok_bind, several, nodes, made]
  rfl

theorem dumped_map (timestamp : Timestamp) (messages : List (List Char)) :
    Dumped messages (messages.map fun message => dmesgLine timestamp message) := by
  induction messages with
  | nil => exact .nil
  | cons message messages ih => exact .own timestamp ih

/-- A process with a second thread and a child. -/
def threadAndChild : Population where
  root := .mk ⟨5, ⟨['s', 'h'], by simp⟩, 0⟩ [.mk ⟨7, ⟨['s', 'h'], by simp⟩, 2⟩ [] []]
    [.mk ⟨6, ⟨['s', 'h'], by simp⟩, 1⟩ []]
  distinct := by decide

/-- The kernel has printed something else before the listing. -/
theorem drawn_thread_and_child : ∃ lines, 8 ≤ lines.length ∧
    ∃ drawing, plot lines = .ok (some drawing) ∧ Draws threadAndChild.root drawing := by
  have pids : pidsOf threadAndChild.root.visited = [5, 6, 7] := by decide
  have high : PidsHigh threadAndChild.root := by
    intro i pid found
    rw [pids] at found
    rcases i with _ | _ | _ | i
    all_goals cases found
    all_goals decide
  have verbatim : Verbatim ['s', 'h'] := by
    unfold Verbatim
    decide
  have names : ∀ process ∈ threadAndChild.root.visited, ∀ task ∈ process.tasks,
      Verbatim task.comm := by
    simp [threadAndChild, Process.visited_mk, Process.tasks, Process.leader, Process.threads,
      Thread.task, verbatim]
  let timestamp : Timestamp := ⟨"   12.500000".toList, by decide⟩
  have skipped : ReadAs "usb 1-1: new device\n".toList none :=
    @passed_over _ 'u' (by decide) (by decide)
  refine ⟨_, ?_, drawn (fun _ => 0) high names
    (.other (skipped timestamp) (dumped_map timestamp _))⟩
  decide

end Population

end Comp304.Psvis
