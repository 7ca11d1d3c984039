import Comp304.Metro.Conservation
import Comp304.Metro.Clearance
import Mathlib.Data.List.Induction

/-! The lists of waiting trains in the control log. A section thread makes its
list under the lock. The control center copies the four queues one after the
other without it, and trains depart in between; so its list may miss a train
and have a later one. -/
namespace Comp304.Metro
open Library.Lanes Library.Traces

def ControlPoint.Copying : ControlPoint → Prop
  | copying _ _ _ _ _ => True
  | _ => False

/-- The text lists the numbers of the waiting trains, smaller ones first. -/
def ListsWaiting (st : State) (text : String) : Prop :=
  ∃ ids : List Int, ids.Pairwise (· < ·) ∧
    (∀ id, id ∈ ids ↔ ∃ source, ∃ train ∈ st.sectionQueue source, train.id = id) ∧
    text.toList = [','].intercalate (ids.map fun id => (toString id).toList)

/-- The step adds this entry to the control log. -/
def Logs (st st' : State) (entry : Event) : Prop :=
  st'.controlLogQueue = st.controlLogQueue ++ [entry]

/-- Every list of waiting trains in the log is the list of one instant of the
`trainsWaiting` call that made it. A call under the lock is within one instant,
and a call of the control center lasts while it stands copying. -/
structure ConsistentSnapshots (state : ℕ → State) (count : ℕ) : Prop where
  overloads : ∀ i < count, ∀ entry, Logs (state i) (state (i + 1)) entry →
    entry.event = "System Overload" → ListsWaiting (state i) entry.trainsWaitingPassage
  notices : ∀ i < count, ∀ entry, Logs (state i) (state (i + 1)) entry →
    entry.event = "Tunnel Passing" ∨ entry.event = "Breakdown" →
    ∃ j ≤ i, (∀ m, j ≤ m → m ≤ i → (state m).controlAt.Copying) ∧
      ListsWaiting (state j) entry.trainsWaitingPassage

/-- The trains of these queues in the order of the list. -/
def merged (queue : Station → List Train) (copied : List Station) : List Train :=
  copied.foldl (fun pq source => addSectionQueuesToPriorityQueue pq (queue source)) []

/-- A train departs into a queue that the control center has still to copy, after
one has departed into a queue it has copied already. -/
def mixes (st : State) (move : Move) : Bool :=
  match move.thread, st.controlAt with
  | .sectionFunction source, .copying _ _ _ pq left =>
    (st.sectionAt source).creating && decide (source ∈ left) &&
      decide (pq ≠ merged st.sectionQueue (stations.filter (· ∉ left)))
  | _, _ => false

/-! ### The text of a list -/

theorem waitingText_toList (trains : List Train) : (waitingText trains).toList =
    [','].intercalate (trains.map fun train => (toString train.id).toList) := by
  fun_induction waitingText trains with
  | case1 => rfl
  | case2 train => simp
  | case3 train rest more ih =>
    obtain ⟨second, rest, rfl⟩ := List.exists_cons_of_ne_nil more
    rw [String.toList_append, String.toList_append, ih]
    simp only [List.map_cons, List.intercalate_cons_cons]
    rfl

/-- Each train of the queue is put into the list once. -/
theorem addSectionQueues_perm (pq q : List Train) :
    (addSectionQueuesToPriorityQueue pq q).Perm (pq ++ q) := by
  induction q generalizing pq with
  | nil => exact List.Perm.of_eq (List.append_nil pq).symm
  | cons train q ih =>
    refine (ih (pushTrain pq train)).trans ?_
    exact ((List.perm_orderedInsert _ train pq).append_right q).trans List.perm_middle.symm

theorem addSectionQueues_sorted {pq : List Train}
    (sorted : pq.Pairwise fun first second => first.id ≤ second.id) (q : List Train) :
    (addSectionQueuesToPriorityQueue pq q).Pairwise fun first second => first.id ≤ second.id := by
  induction q generalizing pq with
  | nil => exact sorted
  | cons train q ih =>
    have : Std.Total fun first second : Train => first.id ≤ second.id := ⟨fun a b => le_total _ _⟩
    have : IsTrans Train fun first second => first.id ≤ second.id := ⟨fun _ _ _ => le_trans⟩
    exact ih (sorted.orderedInsert train pq)

theorem merged_snoc (queue : Station → List Train) (copied : List Station) (source : Station) :
    merged queue (copied ++ [source]) =
      addSectionQueuesToPriorityQueue (merged queue copied) (queue source) := by
  simp [merged]

/-- The list has the trains of the queues it was made from. -/
theorem merged_perm (queue : Station → List Train) (copied : List Station) :
    (merged queue copied).Perm (copied.flatMap queue) := by
  induction copied using List.reverseRecOn with
  | nil => exact List.Perm.refl _
  | append_singleton copied source ih =>
    rw [merged_snoc, List.flatMap_append, List.flatMap_singleton]
    exact (addSectionQueues_perm _ _).trans (ih.append_right _)

theorem merged_sorted (queue : Station → List Train) (copied : List Station) :
    (merged queue copied).Pairwise fun first second => first.id ≤ second.id := by
  induction copied using List.reverseRecOn with
  | nil => exact List.Pairwise.nil
  | append_singleton copied source ih =>
    rw [merged_snoc]
    exact addSectionQueues_sorted ih _

/-- The list is the same for queues that differ elsewhere. -/
theorem merged_congr {queue queue' : Station → List Train} {copied : List Station}
    (same : ∀ source ∈ copied, queue' source = queue source) :
    merged queue' copied = merged queue copied := by
  induction copied using List.reverseRecOn with
  | nil => rfl
  | append_singleton copied source ih =>
    rw [merged_snoc, merged_snoc, ih fun other member => same other (by simp [member]),
      same source (by simp)]

/-- What `trainsWaiting` makes of the queues of one instant of a run. -/
theorem Account.lists_waiting {state : ℕ → State} {departed entered : List Train}
    (account : Account state k st departed entered) :
    ListsWaiting st (waitingText (merged st.sectionQueue stations)) := by
  have all := merged_perm st.sectionQueue stations
  have lanes : ∀ source, (st.sectionQueue source).Sublist departed := account.fifo.waiting_sublist
  have distinct : ((stations.flatMap st.sectionQueue).map Train.id).Nodup := by
    refine List.Nodup.map_on (fun train waits other waits' same => ?_) ?_
    · obtain ⟨source, -, here⟩ := List.mem_flatMap.mp waits
      obtain ⟨source', -, there⟩ := List.mem_flatMap.mp waits'
      exact account.numbered.eq_of_id ((lanes source).subset here) ((lanes source').subset there) same
    · refine List.nodup_flatMap.mpr ⟨fun source _ => (lanes source).nodup account.numbered.distinct, ?_⟩
      have apart : stations.Nodup := by decide
      refine apart.imp fun {source source'} other train here there => ?_
      exact other ((account.fifo.origin_of_waiting here).symm.trans (account.fifo.origin_of_waiting there))
  have once : ((merged st.sectionQueue stations).map Train.id).Nodup :=
    (all.map Train.id).nodup_iff.mpr distinct
  refine ⟨(merged st.sectionQueue stations).map Train.id, ?_, fun id => ?_, ?_⟩
  · have ordered : ((merged st.sectionQueue stations).map Train.id).Pairwise (· ≤ ·) :=
      List.pairwise_map.mpr (merged_sorted _ _)
    exact (ordered.and once).imp fun both => lt_of_le_of_ne both.1 both.2
  · rw [(all.map Train.id).mem_iff, List.mem_map]
    constructor
    · rintro ⟨train, waits, rfl⟩
      obtain ⟨source, -, here⟩ := List.mem_flatMap.mp waits
      exact ⟨source, train, here, rfl⟩
    · rintro ⟨source, train, here, rfl⟩
      exact ⟨train, List.mem_flatMap.mpr ⟨source, mem_stations source, here⟩, rfl⟩
  · rw [waitingText_toList, List.map_map]
    rfl

/-- There is one such text for a state. -/
theorem ListsWaiting.unique (lists : ListsWaiting st text) (lists' : ListsWaiting st text') :
    text = text' := by
  obtain ⟨ids, increasing, members, shown⟩ := lists
  obtain ⟨ids', increasing', members', shown'⟩ := lists'
  have equal : ids = ids' :=
    increasing.eq_of_mem_iff increasing' fun id => (members id).trans (members' id).symm
  rw [← equal] at shown'
  exact String.toList_injective (shown.trans shown'.symm)

/-! ### The calls of the control center -/

/-- What has been copied, and the queues that are left, are as they were at one
instant of the call that is being made at instant `k`. -/
def TakenAtOnce (state : ℕ → State) (k : ℕ) (pq : List Train) (left : List Station) : Prop :=
  ∃ j ≤ k, (∀ m, j ≤ m → m ≤ k → (state m).controlAt.Copying) ∧
    ∃ copied, copied ++ left = stations ∧ pq = merged (state j).sectionQueue copied ∧
      ∀ source ∈ left, (state k).sectionQueue source = (state j).sectionQueue source

/-- The control center, if it is copying, has been copying one instant. -/
def CopiesAtOnce (state : ℕ → State) (k : ℕ) : Prop :=
  ∀ notice train time pq left, (state k).controlAt = .copying notice train time pq left →
    TakenAtOnce state k pq left

/-- A section thread leaves the queues alone or puts its train into its own. -/
theorem sectionStep_queues (p : Draw) (st : State) (source : Station) (move : Move) :
    (sectionStep p st source move).sectionQueue = st.sectionQueue ∨
      (st.sectionAt source).creating = true ∧ ∀ other ≠ source,
        (sectionStep p st source move).sectionQueue other = st.sectionQueue other := by
  unfold sectionStep
  cases point : st.sectionAt source with
  | loopTest => exact Or.inl rfl
  | overloadCheck =>
    refine Or.inl ?_
    obtain ⟨-, -, declared⟩ | ⟨-, same⟩ := overloadRegion_cases st move.now move.later
    · simp only [declared]
      rfl
    · simp only [same]
      rfl
  | secondTest =>
    refine Or.inl ?_
    dsimp only
    split_ifs <;> rfl
  | create length destination =>
    exact Or.inr ⟨rfl, fun other apart => Function.update_of_ne apart ..⟩

/-- The queues before the ones that are left have been copied. -/
theorem copied_eq (whole : copied ++ left = stations) : stations.filter (· ∉ left) = copied := by
  have distinct : (copied ++ left).Nodup := by
    rw [whole]
    decide
  have apart := List.disjoint_of_nodup_append distinct
  rw [← whole, List.filter_append]
  have front : copied.filter (· ∉ left) = copied :=
    List.filter_eq_self.mpr fun source member => by simpa using apart member
  have back : left.filter (· ∉ left) = [] :=
    List.filter_eq_nil_iff.mpr fun source member => by simpa using member
  rw [front, back, List.append_nil]

section
variable {state : ℕ → State}

/-- The call goes on, and the queues that are left have not changed. -/
theorem TakenAtOnce.stay (taken : TakenAtOnce state k pq left)
    (copying : (state (k + 1)).controlAt.Copying)
    (same : ∀ source ∈ left, (state (k + 1)).sectionQueue source = (state k).sectionQueue source) :
    TakenAtOnce state (k + 1) pq left := by
  obtain ⟨j, early, calling, copied, whole, list, rest⟩ := taken
  refine ⟨j, Nat.le_succ_of_le early, fun m low high => ?_, copied, whole, list,
    fun source member => (same source member).trans (rest source member)⟩
  cases Nat.lt_or_eq_of_le high with
  | inl before => exact calling m low (Nat.le_of_lt_succ before)
  | inr last => exact last ▸ copying

/-- What has been copied is as it is now. -/
theorem TakenAtOnce.now (copying : (state k).controlAt.Copying) (whole : copied ++ left = stations)
    (list : pq = merged (state k).sectionQueue copied) : TakenAtOnce state k pq left :=
  ⟨k, Nat.le_refl k, fun _ low high => Nat.le_antisymm high low ▸ copying, copied, whole, list,
    fun _ _ => rfl⟩

/-- A train departs during the call. If it is into a queue that is left, then none
has departed into a copied queue, and the instant moves on; otherwise it stays. -/
theorem CopiesAtOnce.depart (once : CopiesAtOnce state k) (plain : mixes (state k) move = false)
    (turn : move.thread = .sectionFunction source)
    (stepped : state (k + 1) = sectionStep p (state k) source move) : CopiesAtOnce state (k + 1) := by
  intro notice train time pq left point
  have before : (state k).controlAt = .copying notice train time pq left := by
    rw [← point, stepped, sectionStep_control]
  have copying : (state (k + 1)).controlAt.Copying := by
    rw [point]
    trivial
  have taken := once notice train time pq left before
  have queues := sectionStep_queues p (state k) source move
  rw [← stepped] at queues
  cases queues with
  | inl same => exact taken.stay copying fun other _ => by rw [same]
  | inr pushed =>
    obtain ⟨creating, others⟩ := pushed
    by_cases waits : source ∈ left
    · obtain ⟨j, -, -, copied, whole, -, -⟩ := taken
      have current : pq = merged (state k).sectionQueue copied := by
        simp only [mixes, turn, before, creating, decide_eq_true waits, copied_eq whole] at plain
        simpa using plain
      refine .now copying whole (current.trans (merged_congr fun other member => ?_).symm)
      refine others other fun same => ?_
      have distinct : (copied ++ left).Nodup := by
        rw [whole]
        decide
      exact List.disjoint_of_nodup_append distinct member (same ▸ waits)
    · exact taken.stay copying fun other member => others other fun same => waits (same ▸ member)

/-- The control center begins a call, or copies one more queue. -/
theorem CopiesAtOnce.control (once : CopiesAtOnce state k)
    (stepped : controlStep (state k) move = some (state (k + 1))) : CopiesAtOnce state (k + 1) := by
  intro notice train time pq left point
  have copying : (state (k + 1)).controlAt.Copying := by
    rw [point]
    trivial
  have begins : pq = [] → left = stations → TakenAtOnce state (k + 1) pq left :=
    fun none all => .now copying (show [] ++ left = stations from all) none
  have inversion := controlStep_cases stepped
  generalize next : state (k + 1) = st' at inversion point
  cases inversion with
  | passing inside before =>
    cases point
    exact begins rfl rfl
  | travel inside before =>
    rw [State.setControl_control] at point
    split_ifs at point
    cases point
    exact begins rfl rfl
  | copy notice' inside time' pq' source left' before =>
    cases point
    have queues : (state (k + 1)).sectionQueue = (state k).sectionQueue := by
      rw [next]
      rfl
    obtain ⟨j, early, calling, copied, whole, list, rest⟩ :=
      (once _ _ _ _ _ before).stay copying fun _ _ => by rw [queues]
    refine ⟨j, early, calling, copied ++ [source], by rw [← whole, List.append_assoc]; rfl, ?_,
      fun other member => rest other (List.mem_cons_of_mem _ member)⟩
    rw [merged_snoc, ← list, ← rest source List.mem_cons_self, queues]
  | emptyCheck | clearedTest =>
    rw [State.setControl_control] at point
    split_ifs at point
  | note notice' =>
    rw [State.setControl_control] at point
    cases notice' <;> cases point
  | logCleared | reset | select | arrive => cases point

/-- A call that ends has copied all queues at one instant. -/
theorem TakenAtOnce.lists (taken : TakenAtOnce state k pq [])
    (run : Run p count state move) (inside : k ≤ count) :
    ∃ j ≤ k, (∀ m, j ≤ m → m ≤ k → (state m).controlAt.Copying) ∧
      ListsWaiting (state j) (waitingText pq) := by
  obtain ⟨j, early, calling, copied, whole, rfl, -⟩ := taken
  obtain ⟨departed, entered, account⟩ := run_account run j (Nat.le_trans early inside)
  rw [List.append_nil] at whole
  exact ⟨j, early, calling, whole ▸ account.lists_waiting⟩

end

/-! ### What is logged -/

/-- A step that leaves the log alone logs no entry. -/
theorem Logs.changed (logs : Logs st st' entry) : st'.controlLogQueue ≠ st.controlLogQueue := by
  intro same
  have longer := logs.symm.trans same
  simp at longer

/-- Where an entry with a list of waiting trains comes from: an overload check, or
a call of the control center that has copied all queues. -/
theorem step_logs (stepped : step p st move = some st') (logs : Logs st st' entry) :
    entry.event = "System Overload" ∧ entry.trainsWaitingPassage = trainsWaiting st.sectionQueue ∨
      entry.event = "Tunnel Cleared" ∨
      ∃ notice train time pq, st.controlAt = .copying notice train time pq [] ∧
        entry.event = notice.text ∧ entry.trainsWaitingPassage = waitingText pq := by
  unfold step at stepped
  cases turn : move.thread with
  | sectionFunction source =>
    simp only [turn, Option.some.injEq] at stepped
    subst stepped
    unfold sectionStep at logs
    cases point : st.sectionAt source with
    | loopTest | create =>
      simp only [point] at logs
      exact absurd rfl logs.changed
    | overloadCheck =>
      simp only [point] at logs
      obtain ⟨-, -, declared⟩ | ⟨-, same⟩ := overloadRegion_cases st move.now move.later
      · rw [declared] at logs
        cases List.singleton_inj.mp (List.append_cancel_left logs)
        exact Or.inl ⟨rfl, rfl⟩
      · rw [same] at logs
        exact absurd rfl logs.changed
    | secondTest =>
      simp only [point] at logs
      split_ifs at logs <;> exact absurd rfl logs.changed
  | controlCenter =>
    simp only [turn] at stepped
    cases controlStep_cases stepped with
    | logCleared point =>
      cases List.singleton_inj.mp (List.append_cancel_left logs)
      exact Or.inr (Or.inl rfl)
    | note notice train time pq point =>
      cases List.singleton_inj.mp (List.append_cancel_left logs)
      exact Or.inr (Or.inr ⟨notice, train, time, pq, point, rfl, rfl⟩)
    | _ => exact absurd rfl logs.changed

/-- Without departures that mix old and new queues, every list in the log is the
list of one instant. -/
theorem run_snapshots_consistent (run : Run p count state move)
    (plain : ∀ i < count, mixes (state i) (move i) = false) : ConsistentSnapshots state count := by
  have once : ∀ k ≤ count, CopiesAtOnce state k := by
    apply run.invariant fun k _ => CopiesAtOnce state k
    · intro notice train time pq left point
      rw [run.start] at point
      cases point
    · intro i below stepped copies
      unfold step at stepped
      cases turn : (move i).thread with
      | sectionFunction source =>
        simp only [turn, Option.some.injEq] at stepped
        exact copies.depart (plain i below) turn stepped.symm
      | controlCenter =>
        simp only [turn] at stepped
        exact copies.control stepped
  refine ⟨fun i below entry logs name => ?_, fun i below entry logs name => ?_⟩
  · obtain ⟨departed, entered, account⟩ := run_account run i below.le
    obtain ⟨-, text⟩ | other | ⟨notice, _, _, _, _, other, _⟩ := step_logs (run.step i below) logs
    · rw [text]
      exact account.lists_waiting
    · exact absurd (name.symm.trans other) (by decide)
    · cases notice <;> exact absurd (name.symm.trans other) (by decide)
  · obtain ⟨other, -⟩ | other | ⟨notice, train, time, pq, point, -, text⟩ :=
      step_logs (run.step i below) logs
    · rcases name with name | name <;> exact absurd (name.symm.trans other) (by decide)
    · rcases name with name | name <;> exact absurd (name.symm.trans other) (by decide)
    · rw [text]
      exact (once i below.le notice train time pq [] point).lists run below.le

/-- A train passes the tunnel while others depart, before its call copies their
queues or after. -/
def passingAmongDepartures : List Move :=
  List.replicate 4 (turn (.sectionFunction .A)) ++ List.replicate 4 (turn .controlCenter) ++
    List.replicate 4 (turn (.sectionFunction .B)) ++ List.replicate 2 (turn .controlCenter) ++
    List.replicate 4 (turn (.sectionFunction .A)) ++ List.replicate 3 (turn .controlCenter)

theorem run_snapshots_consistent_passing :
    (during passingAmongDepartures 21).passings.map Event.trainsWaitingPassage = ["1"] ∧
      ConsistentSnapshots (during passingAmongDepartures) 21 := by
  have checked : checkMoves (step half) (fun st move => !mixes st move) .initial
      passingAmongDepartures = true := by decide +kernel
  refine ⟨by decide +kernel, run_snapshots_consistent (trace_of_check checked) fun i inside => ?_⟩
  simpa using (checkMoves_sound checked i inside).2

/-- The queue of A is copied empty. Then train 1 departs from A and train 2 from B,
and the queue of B is copied. -/
def mixedCopies : List Move :=
  List.replicate 4 (turn (.sectionFunction .A)) ++ List.replicate 4 (turn .controlCenter) ++
    List.replicate 4 (turn (.sectionFunction .A)) ++ List.replicate 4 (turn (.sectionFunction .B)) ++
    List.replicate 4 (turn .controlCenter)

theorem run_snapshots_mixed : ¬ ∀ p count state move, Run p count state move →
    ConsistentSnapshots state count := by
  intro always
  have checked : checkMoves (step half) (fun _ _ => true) .initial mixedCopies = true := by
    decide +kernel
  have run := trace_of_check checked
  have logged : Logs (during mixedCopies 19) (during mixedCopies 20)
      ⟨"Tunnel Passing", 100, "0", "2"⟩ := by
    have log : (during mixedCopies 20).controlLogQueue =
        (during mixedCopies 19).controlLogQueue ++ [⟨"Tunnel Passing", 100, "0", "2"⟩] := by
      decide +kernel
    exact log
  obtain ⟨j, early, -, lists⟩ := (always _ _ _ _ run).notices 19 (by decide) _ logged (Or.inl rfl)
  obtain ⟨departed, entered, account⟩ := run_account run j (Nat.le_trans early (by decide))
  have never : ∀ j ≤ 19, trainsWaiting (during mixedCopies j).sectionQueue ≠ "2" := by decide +kernel
  exact never j early (account.lists_waiting.unique lists)

end Comp304.Metro
