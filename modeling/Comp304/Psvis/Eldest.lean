import Comp304.Psvis.Plot
import Comp304.Library.Budget

/-! The eldest child of each process. A later child is compared with its parent and
not with the child found so far, so what is found is the last child that was
started before the parent, or else the first child. -/
namespace Comp304.Psvis
open Library Library.Budget

/-- The records of a forest, in any order. -/
structure Family where
  records : List Node
  distinct : (records.map Node.pid).Nodup
  parents : ∀ node ∈ records, node.ppid ≠ -1 → node.ppid ∈ records.map Node.pid

/-- The children of a process, as they are listed. -/
def children (records : List Node) (p : Int) : List Node :=
  records.filter fun c => c.ppid = p ∧ c.ppid ≠ -1

/-- Each process without children has -1, and any other one a child that was started
no later than the others. -/
def EldestFound (records : List Node) : Prop :=
  ∃ eldest, eldestChilds records = .ok eldest ∧ ∀ parent ∈ records,
    (children records parent.pid = [] → eldest.get? parent.pid = some (-1)) ∧
    (children records parent.pid ≠ [] → ∃ c ∈ children records parent.pid,
      eldest.get? parent.pid = some c.pid ∧
        ∀ d ∈ children records parent.pid, c.startTime ≤ d.startTime)

/-- A child is taken behind these siblings: it is the first, was started before the
parent, or follows one with the pid -1 that was taken. -/
def Taken (parent : Node) (before : List Node) (c : Node) : Prop :=
  before = [] ∨ c.startTime < parent.startTime ∨ ∃ front z, before = front ++ [z] ∧ z.pid = -1 ∧
    (front = [] ∨ z.startTime < parent.startTime)

/-- No sibling behind a child is taken. -/
def Stays (parent c : Node) (after : List Node) : Prop :=
  (∀ d ∈ after, parent.startTime ≤ d.startTime) ∧ (after = [] ∨ c.pid ≠ -1)

/-- The last child that is taken was started no later than its siblings. -/
def LastTakenEldest (records : List Node) : Prop :=
  ∀ parent ∈ records, ∀ before c after, children records parent.pid = before ++ c :: after →
    Taken parent before c → Stays parent c after →
      ∀ d ∈ children records parent.pid, c.startTime ≤ d.startTime

/-! ### The children of one process -/

/-- What a child does to the entry of its parent. -/
def pick (start curEd : Int) (c : Node) : Int :=
  if curEd = -1 ∨ c.startTime < start then c.pid else curEd

theorem pick_stays (kept : cur ≠ -1) (after : List Node) (later : ∀ d ∈ after, start ≤ d.startTime) :
    after.foldl (pick start) cur = cur := by
  induction after with
  | nil => rfl
  | cons d after ih =>
    obtain ⟨first, later⟩ := List.forall_mem_cons.mp later
    rw [List.foldl_cons, pick, if_neg (by omega)]
    exact ih later

theorem pick_taken {parent : Node} (taken : Taken parent before c) :
    pick parent.startTime (before.foldl (pick parent.startTime) (-1)) c = c.pid := by
  refine if_pos ?_
  obtain rfl | earlier | ⟨front, z, rfl, none, first⟩ := taken
  · exact Or.inl rfl
  · exact Or.inr earlier
  · have kept : pick parent.startTime (front.foldl (pick parent.startTime) (-1)) z = z.pid := by
      refine if_pos ?_
      obtain rfl | earlier := first
      · exact Or.inl rfl
      · exact Or.inr earlier
    rw [List.foldl_append, List.foldl_cons, List.foldl_nil, kept, none]
    exact Or.inl rfl

theorem foldl_pick {parent : Node} (taken : Taken parent before c) (stays : Stays parent c after) :
    (before ++ c :: after).foldl (pick parent.startTime) (-1) = c.pid := by
  rw [List.foldl_append, List.foldl_cons, pick_taken taken]
  obtain ⟨later, rfl | kept⟩ := stays
  · rfl
  · exact pick_stays kept after later

/-- Some child is the last one that is taken. -/
theorem exists_last_taken (parent : Node) {siblings : List Node} (nonempty : siblings ≠ [])
    (distinct : (siblings.map Node.pid).Nodup) :
    ∃ before c after, siblings = before ++ c :: after ∧ Taken parent before c ∧
      Stays parent c after := by
  induction siblings using List.reverseRecOn with
  | nil => exact absurd rfl nonempty
  | append_singleton siblings d ih =>
    rw [List.map_append, List.nodup_append] at distinct
    by_cases alone : siblings = []
    · subst alone
      exact ⟨[], d, [], rfl, Or.inl rfl, nofun, Or.inl rfl⟩
    obtain ⟨before, c, after, rfl, taken, later, kept⟩ := ih alone distinct.1
    by_cases earlier : d.startTime < parent.startTime
    · exact ⟨before ++ c :: after, d, [], rfl, Or.inr (Or.inl earlier), nofun, Or.inl rfl⟩
    by_cases none : c.pid = -1
    · obtain rfl | other := kept
      · refine ⟨before ++ [c], d, [], rfl, Or.inr (Or.inr ⟨before, c, rfl, none, ?_⟩), nofun, Or.inl rfl⟩
        obtain first | before_ | ⟨front, z, rfl, same, -⟩ := taken
        · exact Or.inl first
        · exact Or.inr before_
        · -- two siblings with the pid -1
          have twice := distinct.1
          simp [none, same, List.nodup_append] at twice
      · exact absurd none other
    · refine ⟨before, c, after ++ [d], by simp, taken, fun e inside => ?_, Or.inr none⟩
      obtain old | new := List.mem_append.mp inside
      · exact later e old
      · rw [List.mem_singleton.mp new]
        exact Int.not_lt.mp earlier

/-! ### The loops -/

section
variable {records : List Node}

theorem children_concat (records : List Node) (node : Node) (p : Int) :
    children (records ++ [node]) p =
      children records p ++ if node.ppid = p ∧ node.ppid ≠ -1 then [node] else [] := by
  rw [children, List.filter_append, List.filter_singleton]
  simp [children]

theorem get?_startTimes (distinct : (records.map Node.pid).Nodup) {node : Node}
    (listed : node ∈ records) : (startTimes records).get? node.pid = some node.startTime :=
  (Dict.get?_foldl_assign Node.pid Node.startTime distinct).mpr ⟨node, listed, rfl, rfl⟩

theorem get?_noChilds (distinct : (records.map Node.pid).Nodup) {node : Node}
    (listed : node ∈ records) : (noChilds records).get? node.pid = some (-1) :=
  (Dict.get?_foldl_assign Node.pid (fun _ => (-1 : Int)) distinct).mpr ⟨node, listed, rfl, rfl⟩

theorem eq_of_pid (distinct : (records.map Node.pid).Nodup) {a b : Node} (one : a ∈ records)
    (other : b ∈ records) (same : a.pid = b.pid) : a = b :=
  List.inj_on_of_nodup_map distinct one other same

/-- One round of the second loop, for the record of a child. -/
theorem eldestStep_child (distinct : (records.map Node.pid).Nodup) {node parent : Node}
    (listed : node ∈ records) (known : parent ∈ records) (own : parent.pid = node.ppid)
    (child : node.ppid ≠ -1) {eldest : Dict Int Int} (found : eldest.get? parent.pid = some curEd) :
    ∃ eldest', eldestStep (startTimes records) eldest node = .ok eldest' ∧
      ∀ p, eldest'.get? p =
        if p = node.ppid then some (pick parent.startTime curEd node) else eldest.get? p := by
  have start := get?_startTimes distinct listed
  have parentStart := get?_startTimes distinct known
  rw [own] at found parentStart
  have entry : ∀ p, (eldest.assign node.ppid node.pid).get? p =
      if p = node.ppid then some node.pid else eldest.get? p := fun p => Dict.get?_assign ..
  simp only [eldestStep, if_pos child, subscript, found, parentStart, start, ok_bind]
  by_cases none : curEd = -1
  · refine ⟨_, if_pos none, fun p => ?_⟩
    rw [entry, pick, if_pos (Or.inl none)]
  · rw [if_neg none]
    by_cases earlier : node.startTime < parent.startTime
    · refine ⟨_, if_pos earlier, fun p => ?_⟩
      rw [entry, pick, if_pos (Or.inr earlier)]
    · refine ⟨_, if_neg earlier, fun p => ?_⟩
      rw [pick, if_neg (not_or.mpr ⟨none, earlier⟩)]
      split
      · next same => rw [same, found]
      · rfl

/-- The entries after some rounds of the second loop. -/
theorem eldest_loop (family : Family) (done : List Node) (inside : done ⊆ family.records) :
    ∃ eldest, done.foldlM (eldestStep (startTimes family.records)) (noChilds family.records) =
        .ok eldest ∧
      ∀ parent ∈ family.records, eldest.get? parent.pid =
        some ((children done parent.pid).foldl (pick parent.startTime) (-1)) := by
  obtain ⟨records, distinct, parents⟩ := family
  induction done using List.reverseRecOn with
  | nil => exact ⟨_, rfl, fun parent known => get?_noChilds distinct known⟩
  | append_singleton done node ih =>
    obtain ⟨inside, listed⟩ := List.append_subset.mp inside
    replace listed := listed List.mem_cons_self
    obtain ⟨eldest, ran, entries⟩ := ih inside
    simp only [List.foldlM_append, ran, ok_bind, List.foldlM_cons, List.foldlM_nil, bind_pure,
      children_concat]
    by_cases child : node.ppid = -1
    · refine ⟨eldest, if_neg (not_not.mpr child), fun parent known => ?_⟩
      rw [if_neg (by simp [child]), List.append_nil]
      exact entries parent known
    · obtain ⟨own, known, same⟩ := List.mem_map.mp (parents node listed child)
      obtain ⟨eldest', step, entries'⟩ :=
        eldestStep_child distinct listed known same child (entries own known)
      refine ⟨eldest', step, fun parent there => ?_⟩
      rw [entries']
      by_cases mine : parent.pid = node.ppid
      · obtain rfl := eq_of_pid distinct there known (mine.trans same.symm)
        rw [if_pos mine, if_pos ⟨mine.symm, child⟩, List.foldl_append, List.foldl_cons,
          List.foldl_nil]
      · rw [if_neg mine, if_neg (fun both => mine both.1.symm), List.append_nil]
        exact entries parent there

end

namespace Family
variable (family : Family)

theorem children_distinct (p : Int) : ((children family.records p).map Node.pid).Nodup :=
  family.distinct.sublist (List.filter_sublist.map _)

/-- The plot finds the eldest children exactly when the last child that is taken is
one of them. -/
theorem eldest_found_iff : EldestFound family.records ↔ LastTakenEldest family.records := by
  obtain ⟨eldest, ran, entries⟩ := eldest_loop family family.records (List.Subset.refl _)
  constructor
  · rintro ⟨eldest', ran', found⟩ parent known before c after split taken stays
    cases ran.symm.trans ran'
    have nonempty : children family.records parent.pid ≠ [] := by
      rw [split]
      simp
    obtain ⟨first, listed, entry, least⟩ := (found parent known).2 nonempty
    have last := foldl_pick taken stays
    have own : c ∈ children family.records parent.pid := by
      rw [split]
      simp
    rw [← split] at last
    rw [entries parent known, last, Option.some.injEq] at entry
    obtain rfl := eq_of_pid family.distinct (List.mem_of_mem_filter own)
      (List.mem_of_mem_filter listed) entry
    exact least
  · intro last
    refine ⟨eldest, ran, fun parent known => ⟨fun none => ?_, fun nonempty => ?_⟩⟩
    · rw [entries parent known, none]
      rfl
    · obtain ⟨before, c, after, split, taken, stays⟩ :=
        exists_last_taken parent nonempty (family.children_distinct parent.pid)
      refine ⟨c, ?_, ?_, last parent known before c after split taken stays⟩
      · rw [split]
        simp
      · rw [entries parent known, split, foldl_pick taken stays]

/-- A parent with two children, the second one started first. -/
def youngerFirst : Family where
  records := [⟨-1, 7, 0⟩, ⟨7, 8, 5⟩, ⟨7, 9, 3⟩]
  distinct := by decide
  parents := by decide

/-- The second child was started earlier, but after the parent: the first one stays. -/
theorem younger_child_stays : ¬ EldestFound youngerFirst.records := by
  rintro ⟨eldest, ran, found⟩
  obtain ⟨c, listed, entry, least⟩ := (found ⟨-1, 7, 0⟩ (by decide)).2 (by decide)
  have first : (eldestChilds youngerFirst.records).map (·.get? 7) = .ok (some 8) := by decide
  rw [ran] at first
  have same : some c.pid = some 8 := entry.symm.trans (Except.ok.inj first)
  have siblings : children youngerFirst.records 7 = [⟨7, 8, 5⟩, ⟨7, 9, 3⟩] := by decide
  rw [siblings] at listed least
  obtain rfl | rfl := List.mem_pair.mp listed
  · exact absurd (least ⟨7, 9, 3⟩ (by decide)) (by decide)
  · exact absurd same (by decide)

end Family

end Comp304.Psvis
