import Comp304.Psvis.Program
import Comp304.Psvis.Numbering
import Mathlib.Data.List.Flatten
import Mathlib.Data.List.Perm.Subperm

/-! The walk of `mymodule.c`. A process that is forked is linked into the children list
of the thread that forked it, and `dfs` follows the list of each leader only, so the
processes forked by other threads are not listed, nor is what descends from them. -/
namespace Comp304.Psvis

/-- What the walk reads of a `task_struct`. -/
structure Task where
  pid : Int
  comm : Comm
  startTime : Int

mutual

/-- A leader, the processes it forked, and the other threads of its group. -/
inductive Process where
  | mk (leader : Task) (children : List Process) (threads : List Thread)

/-- A thread that is not a leader, and the processes it forked. -/
inductive Thread where
  | mk (task : Task) (children : List Process)

end

def Process.leader : Process → Task
  | .mk leader _ _ => leader

def Process.threads : Process → List Thread
  | .mk _ _ threads => threads

def Thread.task : Thread → Task
  | .mk task _ => task

def Thread.children : Thread → List Process
  | .mk _ children => children

/-- What `for_each_thread` goes through. -/
def Process.tasks (process : Process) : List Task :=
  process.leader :: process.threads.map Thread.task

/-- The values that `recordText` writes in a line. -/
structure Line where
  ppid : Int
  name : Comm
  pid : Int
  startTime : Int

/-- What `main` of `plot.py` uses of a line. -/
def Line.node (line : Line) : Node := ⟨line.ppid, line.pid, line.startTime⟩

/-- A line is printed. The clock tells `ktime_get_real()-ktime_get_ns()` when the log has
so many lines. -/
def printLine (clock : Nat → Int) (log : List Line) (ppid : Int) (name : Comm) (pid : Int)
    (startTime : Int) : List Line :=
  log ++ [⟨ppid, name, pid, clock log.length + startTime⟩]

/-- The loop over the threads. -/
def printThreads (clock : Nat → Int) (task : Task) (log : List Line) (threads : List Task) :
    List Line :=
  threads.foldl (fun log thread =>
    if thread.pid ≠ task.pid then
      printLine clock log task.pid thread.comm thread.pid task.startTime
    else log) log

mutual

/-- `dfs(task, parent_pid)` -/
def dfs (clock : Nat → Int) : Process → Int → List Line → List Line
  | .mk leader children threads, parentPid, log =>
    let log := printLine clock log parentPid leader.comm leader.pid leader.startTime
    let log := printThreads clock leader log (leader :: threads.map Thread.task)
    dfsEach clock children leader.pid log

/-- The loop over `task->children`. -/
def dfsEach (clock : Nat → Int) : List Process → Int → List Line → List Line
  | [], _, log => log
  | child :: children, parentPid, log =>
    dfsEach clock children parentPid (dfs clock child parentPid log)

end

mutual

/-- A process and all that descend from it, whichever thread forked them. -/
def Process.all : Process → List Process
  | .mk leader children threads =>
    .mk leader children threads :: (allOf children ++ allUnder threads)

def Thread.all : Thread → List Process
  | .mk _ children => allOf children

def allOf : List Process → List Process
  | [] => []
  | process :: processes => process.all ++ allOf processes

def allUnder : List Thread → List Process
  | [] => []
  | thread :: threads => thread.all ++ allUnder threads

end

def pidsOf (processes : List Process) : List Int :=
  processes.flatMap fun process => process.tasks.map Task.pid

/-- Every line after the first has the pid of an earlier one as its ppid. -/
def Linked (log : List Line) : Prop :=
  ∀ front line back, log = front ++ line :: back → front ≠ [] →
    ∃ earlier ∈ front, earlier.pid = line.ppid

/-- There is one line for each leader and one for each other thread, and they are linked. -/
structure Complete (root : Process) (log : List Line) : Prop where
  leaders : ∀ process ∈ root.all, (log.map Line.pid).count process.leader.pid = 1
  threads : ∀ process ∈ root.all, ∀ thread ∈ process.threads,
    (log.map Line.pid).count thread.task.pid = 1
  linked : Linked log

/-- A process tree with no pid twice. -/
structure Population where
  root : Process
  distinct : (pidsOf root.all).Nodup

/-! ### The shape of the tree -/

/-- Induction on all processes below, the children of the leader and those of the threads. -/
theorem Process.descend {motive : Process → Prop}
    (step : ∀ leader children threads, (∀ child ∈ children, motive child) →
      (∀ thread ∈ threads, ∀ child ∈ thread.children, motive child) →
        motive (.mk leader children threads)) (process : Process) : motive process :=
  Process.rec (motive_2 := fun thread => ∀ child ∈ thread.children, motive child)
    (motive_3 := fun children => ∀ child ∈ children, motive child)
    (motive_4 := fun threads => ∀ thread ∈ threads, ∀ child ∈ thread.children, motive child)
    step (fun _ _ below => below) (List.forall_mem_nil _)
    (fun _ _ first rest => List.forall_mem_cons.mpr ⟨first, rest⟩) (List.forall_mem_nil _)
    (fun _ _ first rest => List.forall_mem_cons.mpr ⟨first, rest⟩) process

theorem allOf_eq (processes : List Process) : allOf processes = processes.flatMap Process.all := by
  induction processes with
  | nil => rfl
  | cons process processes ih =>
    rw [List.flatMap_cons, ← ih]
    rfl

theorem allUnder_eq (threads : List Thread) :
    allUnder threads = threads.flatMap fun thread => thread.children.flatMap Process.all := by
  induction threads with
  | nil => rfl
  | cons thread threads ih =>
    obtain ⟨task, children⟩ := thread
    rw [List.flatMap_cons, ← ih, Thread.children, ← allOf_eq]
    rfl

theorem Process.all_mk (leader : Task) (children : List Process) (threads : List Thread) :
    (Process.mk leader children threads).all = .mk leader children threads ::
      (children.flatMap Process.all ++
        threads.flatMap fun thread => thread.children.flatMap Process.all) := by
  rw [← allOf_eq, ← allUnder_eq]
  rfl

mutual

/-- The processes that the walk visits. -/
def Process.visited : Process → List Process
  | .mk leader children threads => .mk leader children threads :: visitedOf children

def visitedOf : List Process → List Process
  | [] => []
  | process :: processes => process.visited ++ visitedOf processes

end

theorem visitedOf_eq (processes : List Process) :
    visitedOf processes = processes.flatMap Process.visited := by
  induction processes with
  | nil => rfl
  | cons process processes ih =>
    rw [List.flatMap_cons, ← ih]
    rfl

theorem Process.visited_mk (leader : Task) (children : List Process) (threads : List Thread) :
    (Process.mk leader children threads).visited =
      .mk leader children threads :: children.flatMap Process.visited := by
  rw [← visitedOf_eq]
  rfl

theorem dfs_mk (clock : Nat → Int) (leader : Task) (children : List Process)
    (threads : List Thread) (parentPid : Int) (log : List Line) :
    dfs clock (.mk leader children threads) parentPid log =
      dfsEach clock children leader.pid (printThreads clock leader
        (printLine clock log parentPid leader.comm leader.pid leader.startTime)
          (leader :: threads.map Thread.task)) := rfl

theorem dfsEach_cons (clock : Nat → Int) (child : Process) (children : List Process)
    (parentPid : Int) (log : List Line) :
    dfsEach clock (child :: children) parentPid log =
      dfsEach clock children parentPid (dfs clock child parentPid log) := rfl

/-! ### What is left out -/

theorem Process.visited_sublist (process : Process) : process.visited.Sublist process.all := by
  induction process using Process.descend with
  | step leader children threads ih _ =>
    rw [visited_mk, all_mk]
    refine List.Sublist.cons_cons _ (List.Sublist.trans ?_ (List.sublist_append_left ..))
    exact List.Sublist.flatMap_right children ih

theorem flatMap_each {f g : α → List β} {list : List α} (inside : ∀ a ∈ list, (f a).Sublist (g a))
    (same : list.flatMap f = list.flatMap g) : ∀ a ∈ list, f a = g a := by
  induction list with
  | nil => exact List.forall_mem_nil _
  | cons a list ih =>
    obtain ⟨first, inside⟩ := List.forall_mem_cons.mp inside
    rw [List.flatMap_cons, List.flatMap_cons] at same
    have total := congrArg List.length same
    have rest := (List.Sublist.flatMap_right list inside).length_le
    rw [List.length_append, List.length_append] at total
    have length : (f a).length = (g a).length := Nat.le_antisymm first.length_le (by omega)
    obtain ⟨here, later⟩ := List.append_inj same length
    exact List.forall_mem_cons.mpr ⟨here, ih inside later⟩

theorem Process.all_ne_nil (process : Process) : process.all ≠ [] := by
  obtain ⟨leader, children, threads⟩ := process
  rw [all_mk]
  exact List.cons_ne_nil _ _

/-- The walk visits all processes exactly when only leaders fork. -/
theorem Process.visited_eq_all_iff (process : Process) : process.visited = process.all ↔
    ∀ p ∈ process.all, ∀ thread ∈ p.threads, thread.children = [] := by
  induction process using Process.descend with
  | step leader children threads ih _ =>
    rw [visited_mk, all_mk, List.forall_mem_cons, List.forall_mem_append]
    constructor
    · intro same
      have lists := List.tail_eq_of_cons_eq same
      have inside (child : Process) (_ : child ∈ children) := child.visited_sublist
      have shorter := (List.Sublist.flatMap_right children inside).length_le
      have total := congrArg List.length lists
      rw [List.length_append] at total
      have none := List.eq_nil_of_length_eq_zero (Nat.le_zero.mp (by omega :
        (threads.flatMap fun thread => thread.children.flatMap Process.all).length ≤ 0))
      rw [none, List.append_nil] at lists
      refine ⟨fun thread member => ?_, fun p below => ?_, ?_⟩
      · refine List.eq_nil_iff_forall_not_mem.mpr fun child forked => ?_
        have empty := List.flatMap_eq_nil_iff.mp (List.flatMap_eq_nil_iff.mp none thread member)
        exact child.all_ne_nil (empty child forked)
      · obtain ⟨child, member, below⟩ := List.mem_flatMap.mp below
        exact (ih child member).mp (flatMap_each inside lists child member) p below
      · rw [none]
        exact List.forall_mem_nil _
    · rintro ⟨leaderOnly, below, -⟩
      have none : (threads.flatMap fun thread => thread.children.flatMap Process.all) = [] :=
        List.flatMap_eq_nil_iff.mpr fun thread member => by rw [leaderOnly thread member]; rfl
      rw [none, List.append_nil]
      refine congrArg (Process.mk leader children threads :: ·) (List.flatMap_congr fun child member => ?_)
      exact (ih child member).mpr fun p inside =>
        below p (List.mem_flatMap.mpr ⟨child, member, inside⟩)

/-- A part of the processes that has all their pids is all of them. -/
theorem eq_of_pids {part processes : List Process} (inside : part.Sublist processes)
    (many : (pidsOf processes).length ≤ (pidsOf part).length) : part = processes := by
  induction inside with
  | slnil => rfl
  | @cons part processes process inside ih =>
    have fewer := (inside.flatMap fun process => process.tasks.map Task.pid).length_le
    simp only [pidsOf, Process.tasks, List.flatMap_cons, List.length_append, List.map_cons,
      List.length_cons] at many fewer
    omega
  | cons_cons process inside ih =>
    rw [pidsOf, pidsOf, List.flatMap_cons, List.flatMap_cons, List.length_append,
      List.length_append] at many
    rw [ih (Nat.le_of_add_le_add_left many)]

/-! ### What is printed -/

theorem linked_nil : Linked [] := fun _ _ _ same =>
  absurd same.symm (List.append_ne_nil_of_right_ne_nil _ (List.cons_ne_nil _ _))

theorem Linked.earlier (linked : Linked log) (found : log[i + 1]? = some line) :
    ∃ j ≤ i, ∃ earlier, log[j]? = some earlier ∧ earlier.pid = line.ppid := by
  obtain ⟨inside, same⟩ := List.getElem?_eq_some_iff.mp found
  have split : log = log.take (i + 1) ++ line :: log.drop (i + 1 + 1) := by
    rw [← same, ← List.drop_eq_getElem_cons inside, List.take_append_drop]
  have later : log.take (i + 1) ≠ [] := List.ne_nil_of_length_pos (by rw [List.length_take]; omega)
  obtain ⟨earlier, member, parent⟩ := linked _ _ _ split later
  obtain ⟨j, before, rfl⟩ := List.mem_iff_getElem.mp member
  rw [List.length_take] at before
  refine ⟨j, by omega, _, ?_, parent⟩
  rw [List.getElem_take, List.getElem?_eq_getElem (by omega)]

/-- The log grows, and each new line has its parent in front of it if the old ones do. -/
def Grows (log log' : List Line) : Prop := log <+: log' ∧ (Linked log → Linked log')

section
variable (clock : Nat → Int) {log log' log'' : List Line}

theorem Grows.refl (log : List Line) : Grows log log := ⟨List.prefix_refl log, id⟩

theorem Grows.trans (first : Grows log log') (second : Grows log' log'') : Grows log log'' :=
  ⟨first.1.trans second.1, second.2 ∘ first.2⟩

/-- The parent is in the log. -/
def Listed (log : List Line) (pid : Int) : Prop := ∃ line ∈ log, line.pid = pid

theorem Listed.after (listed : Listed log pid) (grows : Grows log log') : Listed log' pid := by
  obtain ⟨line, member, same⟩ := listed
  exact ⟨line, grows.1.subset member, same⟩

theorem grows_printLine (parent : log = [] ∨ Listed log ppid) (name : Comm) (pid startTime : Int) :
    Grows log (printLine clock log ppid name pid startTime) := by
  refine ⟨List.prefix_append .., fun linked front line back same later => ?_⟩
  cases back using List.reverseRecOn with
  | nil =>
    obtain ⟨rfl, last⟩ := List.append_inj' same rfl
    cases last
    exact parent.resolve_left later
  | append_singleton back last =>
    rw [← List.cons_append, ← List.append_assoc] at same
    exact linked front line back (List.append_inj' same rfl).1 later

theorem grows_printThreads (task : Task) (threads : List Task) (listed : Listed log task.pid) :
    Grows log (printThreads clock task log threads) := by
  induction threads generalizing log with
  | nil => exact Grows.refl log
  | cons thread threads ih =>
    rw [printThreads, List.foldl_cons]
    split
    · have first := grows_printLine clock (Or.inr listed) thread.comm thread.pid task.startTime
      exact first.trans (ih (listed.after first))
    · exact ih listed

theorem grows_dfsEach {children : List Process} (listed : Listed log parentPid)
    (each : ∀ child ∈ children, ∀ log, Listed log parentPid →
      Grows log (dfs clock child parentPid log)) :
    Grows log (dfsEach clock children parentPid log) := by
  induction children generalizing log with
  | nil => exact Grows.refl log
  | cons child children ih =>
    obtain ⟨here, each⟩ := List.forall_mem_cons.mp each
    have first := here log listed
    exact first.trans (ih (listed.after first) each)

theorem grows_dfs (process : Process) (parent : log = [] ∨ Listed log parentPid) :
    Grows log (dfs clock process parentPid log) := by
  induction process using Process.descend generalizing log parentPid with
  | step leader children threads ih _ =>
    have first := grows_printLine clock parent leader.comm leader.pid leader.startTime
    have listed : Listed (printLine clock log parentPid leader.comm leader.pid leader.startTime)
      leader.pid := ⟨_, List.mem_append_right _ List.mem_cons_self, rfl⟩
    have second := grows_printThreads clock leader (leader :: threads.map Thread.task) listed
    refine (first.trans second).trans (grows_dfsEach clock (listed.after second) ?_)
    exact fun child member log listed => ih child member (Or.inr listed)

/-- The line of the process itself comes first. -/
theorem grows_behind (process : Process) (parentPid : Int) (log : List Line) :
    Grows (printLine clock log parentPid process.leader.comm process.leader.pid
      process.leader.startTime) (dfs clock process parentPid log) := by
  obtain ⟨leader, children, threads⟩ := process
  have listed : Listed (printLine clock log parentPid leader.comm leader.pid leader.startTime)
    leader.pid := ⟨_, List.mem_append_right _ List.mem_cons_self, rfl⟩
  have second := grows_printThreads clock leader (leader :: threads.map Thread.task) listed
  refine second.trans (grows_dfsEach clock (listed.after second) fun child _ log listed => ?_)
  exact grows_dfs clock child (Or.inr listed)

theorem printThreads_pids (task : Task) {threads : List Task}
    (others : ∀ thread ∈ threads, thread.pid ≠ task.pid) :
    (printThreads clock task log (task :: threads)).map Line.pid =
      log.map Line.pid ++ threads.map Task.pid := by
  rw [printThreads, List.foldl_cons, if_neg (not_not_intro rfl)]
  induction threads generalizing log with
  | nil => simp
  | cons thread threads ih =>
    obtain ⟨other, others⟩ := List.forall_mem_cons.mp others
    rw [List.foldl_cons, if_pos other, ih others]
    simp [printLine]

theorem dfsEach_pids {children : List Process}
    (each : ∀ child ∈ children, ∀ log, (dfs clock child parentPid log).map Line.pid =
      log.map Line.pid ++ pidsOf child.visited) :
    (dfsEach clock children parentPid log).map Line.pid =
      log.map Line.pid ++ pidsOf (children.flatMap Process.visited) := by
  induction children generalizing log with
  | nil => exact (List.append_nil _).symm
  | cons child children ih =>
    obtain ⟨first, each⟩ := List.forall_mem_cons.mp each
    rw [dfsEach_cons, ih each, first, List.append_assoc, List.flatMap_cons]
    exact congrArg _ List.flatMap_append.symm

/-- The lines are those of the visited processes. -/
theorem dfs_pids (process : Process)
    (apart : ∀ p ∈ process.visited, ∀ thread ∈ p.threads, thread.task.pid ≠ p.leader.pid) :
    (dfs clock process parentPid log).map Line.pid =
      log.map Line.pid ++ pidsOf process.visited := by
  induction process using Process.descend generalizing log parentPid with
  | step leader children threads ih _ =>
    rw [Process.visited_mk, List.forall_mem_cons] at apart
    obtain ⟨own, apart⟩ := apart
    have others : ∀ task ∈ threads.map Thread.task, task.pid ≠ leader.pid := by
      intro task member
      obtain ⟨thread, inside, rfl⟩ := List.mem_map.mp member
      exact own thread inside
    have below : ∀ child ∈ children, ∀ log, (dfs clock child leader.pid log).map Line.pid =
        log.map Line.pid ++ pidsOf child.visited := fun child member log =>
      ih child member fun p inside => apart p (List.mem_flatMap.mpr ⟨child, member, inside⟩)
    rw [dfs_mk, dfsEach_pids clock below, printThreads_pids clock leader others, Process.visited_mk]
    simp [printLine, pidsOf, Process.tasks, Process.leader, Process.threads]

end

namespace Population
variable (population : Population)

theorem visited_distinct : (pidsOf population.root.visited).Nodup :=
  population.distinct.sublist (population.root.visited_sublist.flatMap _)

theorem dfs_pids (clock : Nat → Int) :
    (dfs clock population.root (-1) []).map Line.pid = pidsOf population.root.visited := by
  refine Psvis.dfs_pids clock _ fun process member thread inside same => ?_
  have own := (List.nodup_flatMap.mp population.visited_distinct).1 process member
  rw [Process.tasks, List.map_cons, List.nodup_cons] at own
  apply own.1
  rw [← same]
  exact List.mem_map_of_mem (List.mem_map_of_mem inside)

theorem dfs_linked (clock : Nat → Int) : Linked (dfs clock population.root (-1) []) :=
  (grows_dfs clock population.root (Or.inl rfl)).2 linked_nil

theorem mem_pidsOf {processes : List Process} : pid ∈ pidsOf processes ↔
    ∃ process ∈ processes, process.leader.pid = pid ∨
      ∃ thread ∈ process.threads, thread.task.pid = pid := by
  simp [pidsOf, Process.tasks, eq_comm]

/-- Every process and thread is listed once exactly when only leaders fork. -/
theorem complete_iff (clock : Nat → Int) :
    Complete population.root (dfs clock population.root (-1) []) ↔
      ∀ process ∈ population.root.all, ∀ thread ∈ process.threads, thread.children = [] := by
  rw [← Process.visited_eq_all_iff]
  constructor
  · rintro ⟨leaders, threads, -⟩
    rw [population.dfs_pids] at leaders threads
    have inside : pidsOf population.root.all ⊆ pidsOf population.root.visited := by
      intro pid member
      obtain ⟨process, listed, rfl | ⟨thread, own, rfl⟩⟩ := mem_pidsOf.mp member
      · exact List.one_le_count_iff.mp (Nat.le_of_eq (leaders _ listed).symm)
      · exact List.one_le_count_iff.mp (Nat.le_of_eq (threads _ listed thread own).symm)
    exact eq_of_pids population.root.visited_sublist
      (List.subperm_of_subset population.distinct inside).length_le
  · intro same
    have once : ∀ pid ∈ pidsOf population.root.all,
        ((dfs clock population.root (-1) []).map Line.pid).count pid = 1 := by
      intro pid member
      rw [population.dfs_pids, same]
      exact List.count_eq_one_of_mem population.distinct member
    refine ⟨fun process member => ?_, fun process member thread own => ?_, ?_⟩
    · exact once _ (mem_pidsOf.mpr ⟨process, member, Or.inl rfl⟩)
    · exact once _ (mem_pidsOf.mpr ⟨process, member, Or.inr ⟨thread, own, rfl⟩⟩)
    · exact population.dfs_linked clock

/-- What is listed, complete or not, is a tree as `plot.py` expects it. -/
def listing (clock : Nat → Int) (nonneg : ∀ pid ∈ pidsOf population.root.visited, 0 ≤ pid) :
    ProcessTree where
  records := (dfs clock population.root (-1) []).map Line.node
  distinct := by
    rw [List.map_map]
    exact population.dfs_pids clock ▸ population.visited_distinct
  nonneg := by
    refine List.forall_mem_map.mpr fun line member => nonneg line.pid ?_
    rw [← population.dfs_pids clock]
    exact List.mem_map_of_mem member
  root node first := by
    obtain ⟨rest, same⟩ := (grows_behind clock population.root (-1) []).1
    rw [← same] at first
    cases first
    rfl
  parents i node found := by
    rw [List.getElem?_map, Option.map_eq_some_iff] at found
    obtain ⟨line, found, rfl⟩ := found
    obtain ⟨j, before, earlier, there, parent⟩ := (population.dfs_linked clock).earlier found
    exact ⟨j, before, earlier.node, by rw [List.getElem?_map, there]; rfl, parent⟩

/-- A process whose second thread has forked. -/
def threadForks : Population where
  root := .mk ⟨1, ⟨"a".toList, by simp⟩, 0⟩ [] [.mk ⟨2, ⟨"a".toList, by simp⟩, 0⟩
    [.mk ⟨3, ⟨"b".toList, by simp⟩, 0⟩ [] []]]
  distinct := by decide

theorem thread_children_are_lost :
    ¬ Complete threadForks.root (dfs (fun _ => 0) threadForks.root (-1) []) := by
  intro complete
  have listed := complete.leaders (.mk ⟨3, ⟨"b".toList, by simp⟩, 0⟩ [] [])
    (List.mem_cons_of_mem _ List.mem_cons_self)
  exact absurd listed (by decide)

end Population

end Comp304.Psvis
