import Comp304.Psvis.Plot
import Comp304.Library.Budget
import Mathlib.Data.List.Forall2
import Mathlib.Data.List.TakeDrop
import Mathlib.Data.List.Range

/-! The numbering of the vertices. `main` asks whether a pid is among the numbers
given so far, not among the pids, so a pid below its own position is skipped and
missed by the edges later. -/
namespace Comp304.Psvis
open Library Library.Budget

/-- The records of a tree, each behind the one of its parent. -/
structure ProcessTree where
  records : List Node
  distinct : (records.map Node.pid).Nodup
  nonneg : ∀ node ∈ records, 0 ≤ node.pid
  root : ∀ node, records.head? = some node → node.ppid = -1
  parents : ∀ i node, records[i + 1]? = some node →
    ∃ j ≤ i, ∃ parent, records[j]? = some parent ∧ parent.pid = node.ppid

/-- The vertices are numbered one-to-one by `0, 1, ...`, and the edges lead from the
number of each parent to that of its child. -/
structure Numbered (tree : List Node) : Prop where
  keys : ∀ p, p ∈ (nodesOf tree).keys ↔ p ∈ tree.map Node.pid
  onto : ∀ i : Int, (∃ p, (nodesOf tree).get? p = some i) ↔ 0 ≤ i ∧ i < tree.length
  oneToOne : ∀ p q i, (nodesOf tree).get? p = some i → (nodesOf tree).get? q = some i → p = q
  inverse : ∀ p i, (inverted (nodesOf tree)).get? i = some p ↔ (nodesOf tree).get? p = some i
  edges : ∃ edges, addList tree = .ok edges ∧ List.Forall₂ (fun node edge =>
    (nodesOf tree).get? node.ppid = some edge.1 ∧ (nodesOf tree).get? node.pid = some edge.2)
      tree.tail edges
  labelled : ∃ names, labels tree = .ok names ∧ names.length = tree.length ∧
    ∀ (i : Nat) (p : Int), names[i]? = some p ↔ (nodesOf tree).get? p = some (i : Int)

/-- No pid is below the number of records in front of its own. -/
def PidsKeepUp (tree : List Node) : Prop :=
  ∀ (i : Nat) node, tree[i]? = some node → (i : Int) ≤ node.pid

/-! ### The loop that fills `nodes` -/

theorem nodesOf_concat (tree : List Node) (node : Node) :
    nodesOf (tree ++ [node]) = number (nodesOf tree) node := List.foldl_append

theorem keys_nodesOf {tree : List Node} (inside : p ∈ (nodesOf tree).keys) :
    p ∈ tree.map Node.pid := by
  induction tree using List.reverseRecOn with
  | nil => cases inside
  | append_singleton tree node ih =>
    rw [List.map_append, List.mem_append, List.map_singleton, List.mem_singleton]
    rw [nodesOf_concat, number] at inside
    split at inside
    · obtain same | old := (Dict.mem_keys_assign ..).mp inside
      · exact Or.inr same
      · exact Or.inl (ih old)
    · exact Or.inl (ih inside)

theorem pid_fresh {tree : List Node} {node : Node}
    (distinct : ((tree ++ [node]).map Node.pid).Nodup) : node.pid ∉ (nodesOf tree).keys := by
  rw [List.map_append, List.nodup_append] at distinct
  intro inside
  exact distinct.2.2 _ (keys_nodesOf inside) _ List.mem_cons_self rfl

/-- The numbers given so far are the first ones. -/
theorem values_nodesOf {tree : List Node} (distinct : (tree.map Node.pid).Nodup) :
    (nodesOf tree).values = (List.range (nodesOf tree).length).map Int.ofNat := by
  induction tree using List.reverseRecOn with
  | nil => rfl
  | append_singleton tree node ih =>
    have fresh := pid_fresh distinct
    rw [List.map_append, List.nodup_append] at distinct
    have before := ih distinct.1
    rw [nodesOf_concat, number]
    split
    · rw [Dict.length_assign_fresh fresh, Dict.values_assign_fresh fresh, before, List.range_succ,
        List.map_append]
      rfl
    · exact before

theorem mem_values_nodesOf {tree : List Node} (distinct : (tree.map Node.pid).Nodup) (x : Int) :
    x ∈ (nodesOf tree).values ↔ 0 ≤ x ∧ x < (nodesOf tree).length := by
  rw [values_nodesOf distinct, List.mem_map]
  constructor
  · rintro ⟨i, inside, rfl⟩
    rw [List.mem_range] at inside
    exact ⟨Int.natCast_nonneg i, Int.ofNat_lt.mpr inside⟩
  · rintro ⟨positive, below⟩
    refine ⟨x.toNat, List.mem_range.mpr (by omega), Int.toNat_of_nonneg positive⟩

theorem pidsKeepUp_concat (tree : List Node) (node : Node) :
    PidsKeepUp (tree ++ [node]) ↔ PidsKeepUp tree ∧ (tree.length : Int) ≤ node.pid := by
  constructor
  · intro keep
    refine ⟨fun i other found => keep i other ?_, keep _ _ List.getElem?_concat_length⟩
    rw [List.getElem?_append_left (List.getElem?_eq_some_iff.mp found).1]
    exact found
  · rintro ⟨keep, last⟩ i other found
    obtain before | behind := Nat.lt_or_ge i tree.length
    · rw [List.getElem?_append_left before] at found
      exact keep i other found
    · rw [List.getElem?_append_right behind, List.getElem?_singleton] at found
      split at found
      · cases found
        omega
      · cases found

/-- Every record gets a number exactly when no pid is skipped. -/
theorem length_nodesOf {tree : List Node} (distinct : (tree.map Node.pid).Nodup)
    (nonneg : ∀ node ∈ tree, 0 ≤ node.pid) :
    (nodesOf tree).length ≤ tree.length ∧
      ((nodesOf tree).length = tree.length ↔ PidsKeepUp tree) := by
  induction tree using List.reverseRecOn with
  | nil => exact ⟨Nat.le_refl 0, fun _ => nofun, fun _ => rfl⟩
  | append_singleton tree node ih =>
    have fresh := pid_fresh distinct
    rw [List.map_append, List.nodup_append] at distinct
    obtain ⟨few, all⟩ := ih distinct.1 fun other inside => nonneg other (List.mem_append_left _ inside)
    have positive := nonneg node (List.mem_append_right _ List.mem_cons_self)
    have given := mem_values_nodesOf distinct.1 node.pid
    rw [nodesOf_concat, number, pidsKeepUp_concat, ← all, List.length_append, List.length_singleton]
    split
    · next unused =>
      have longer := Dict.length_assign_fresh fresh ((nodesOf tree).length : Int)
      rw [given] at unused
      omega
    · next used =>
      rw [not_not, given] at used
      omega

/-! ### What is numbered when no pid is skipped -/

section
variable {tree : List Node}

theorem entries_nodesOf (distinct : (tree.map Node.pid).Nodup) (keep : PidsKeepUp tree) :
    (nodesOf tree).entries = tree.mapIdx fun i node => (node.pid, (i : Int)) := by
  induction tree using List.reverseRecOn with
  | nil => rfl
  | append_singleton tree node ih =>
    have fresh := pid_fresh distinct
    rw [List.map_append, List.nodup_append] at distinct
    obtain ⟨before, last⟩ := (pidsKeepUp_concat tree node).mp keep
    have entries := ih distinct.1 before
    have length : (nodesOf tree).length = tree.length := by
      rw [Dict.length, entries, List.length_mapIdx]
    have unused : node.pid ∉ (nodesOf tree).values := by
      rw [mem_values_nodesOf distinct.1]
      omega
    rw [nodesOf_concat, number, if_pos unused, Dict.entries_assign_fresh fresh, entries,
      List.mapIdx_concat, length]

theorem get?_nodesOf (distinct : (tree.map Node.pid).Nodup) (keep : PidsKeepUp tree) :
    (nodesOf tree).get? p = some x ↔
      ∃ (i : Nat) (node : Node), tree[i]? = some node ∧ node.pid = p ∧ (i : Int) = x := by
  rw [Dict.get?_eq_some_iff, entries_nodesOf distinct keep, List.mem_iff_getElem?]
  simp only [List.getElem?_mapIdx, Option.map_eq_some_iff, Prod.mk.injEq]

theorem get?_inverted (distinct : (tree.map Node.pid).Nodup) :
    (inverted (nodesOf tree)).get? x = some p ↔ (nodesOf tree).get? p = some x := by
  have apart : ((nodesOf tree).entries.map Prod.snd).Nodup := by
    have numbers := values_nodesOf distinct
    rw [Dict.values] at numbers
    rw [numbers]
    exact List.nodup_range.map fun i j same => Int.ofNat.inj same
  have filled := Dict.get?_foldl_assign (k := x) (v := p) Prod.snd Prod.fst apart
  rw [Dict.get?_eq_some_iff (d := nodesOf tree)]
  refine filled.trans ?_
  simp only [Prod.exists]
  constructor
  · rintro ⟨_, _, inside, rfl, rfl⟩
    exact inside
  · intro inside
    exact ⟨_, _, inside, rfl, rfl⟩

/-- The number of a pid that has one. -/
def indexOf (tree : List Node) (p : Int) : Int := ((nodesOf tree).get? p).getD 0

theorem get?_indexOf (distinct : (tree.map Node.pid).Nodup) (keep : PidsKeepUp tree)
    (known : p ∈ tree.map Node.pid) : (nodesOf tree).get? p = some (indexOf tree p) := by
  obtain ⟨node, listed, rfl⟩ := List.mem_map.mp known
  obtain ⟨i, found⟩ := List.mem_iff_getElem?.mp listed
  have given := (get?_nodesOf (p := node.pid) distinct keep).mpr ⟨i, node, found, rfl, rfl⟩
  rw [indexOf, given]
  rfl

theorem subscript_nodesOf (distinct : (tree.map Node.pid).Nodup) (keep : PidsKeepUp tree)
    (known : p ∈ tree.map Node.pid) : subscript (nodesOf tree) p = .ok (indexOf tree p) := by
  rw [subscript, get?_indexOf distinct keep known]

/-- The loop that fills `add_list`, over records of known processes. -/
theorem addList_eq (distinct : (tree.map Node.pid).Nodup) (keep : PidsKeepUp tree)
    (parents : ∀ node ∈ tree, node.ppid ≠ -1 → node.ppid ∈ tree.map Node.pid) :
    addList tree = .ok ((tree.filter (·.ppid ≠ -1)).map fun node =>
      (indexOf tree node.ppid, indexOf tree node.pid)) := by
  have loop : ∀ (rest : List Node) (edges : List (Int × Int)), rest ⊆ tree →
      rest.foldlM (fun edges node =>
        if node.ppid ≠ -1 then do
          let parent ← subscript (nodesOf tree) node.ppid
          let child ← subscript (nodesOf tree) node.pid
          return edges ++ [(parent, child)]
        else return edges) edges =
      .ok (edges ++ (rest.filter (·.ppid ≠ -1)).map fun node =>
        (indexOf tree node.ppid, indexOf tree node.pid)) := by
    intro rest edges inside
    induction rest generalizing edges with
    | nil => simp [pure, Except.pure]
    | cons node rest ih =>
      obtain ⟨listed, inside⟩ := List.cons_subset.mp inside
      rw [List.foldlM_cons, List.filter_cons]
      by_cases child : node.ppid ≠ -1
      · rw [if_pos child, subscript_nodesOf distinct keep (parents node listed child), ok_bind,
          subscript_nodesOf distinct keep (List.mem_map_of_mem listed), ok_bind, pure_bind,
          ih _ inside, if_pos (by simpa using child), List.map_cons, List.append_assoc]
        rfl
      · rw [if_neg child, pure_bind, ih _ inside, if_neg (by simpa using child)]
  exact loop tree [] (List.Subset.refl tree)

end

namespace ProcessTree
variable (t : ProcessTree)

theorem ppid_known {node : Node} (listed : node ∈ t.records) (child : node.ppid ≠ -1) :
    node.ppid ∈ t.records.map Node.pid := by
  obtain ⟨i, found⟩ := List.mem_iff_getElem?.mp listed
  cases i with
  | zero =>
    rw [← List.head?_eq_getElem?] at found
    exact absurd (t.root node found) child
  | succ i =>
    obtain ⟨j, -, parent, there, same⟩ := t.parents i node found
    exact List.mem_map.mpr ⟨parent, List.mem_iff_getElem?.mpr ⟨j, there⟩, same⟩

/-- Only the first record has no parent. -/
theorem filter_ppid : t.records.filter (·.ppid ≠ -1) = t.records.tail := by
  obtain ⟨records, -, nonneg, root, parents⟩ := t
  cases records with
  | nil => rfl
  | cons first rest =>
    have none : first.ppid = -1 := root first rfl
    rw [List.filter_cons, if_neg (by simpa using none), List.tail_cons, List.filter_eq_self]
    intro node listed
    obtain ⟨i, found⟩ := List.mem_iff_getElem?.mp listed
    obtain ⟨j, -, parent, there, same⟩ := parents i node found
    have positive := nonneg parent (List.mem_of_getElem? there)
    rw [decide_eq_true_eq, ← same]
    omega

/-- The plot numbers the processes exactly when no pid is below its position. -/
theorem numbering_iff : Numbered t.records ↔ PidsKeepUp t.records := by
  have counted := length_nodesOf t.distinct t.nonneg
  constructor
  · intro numbered
    rw [← counted.2]
    refine Nat.le_antisymm counted.1 (Nat.le_of_not_lt fun fewer => ?_)
    obtain ⟨p, found⟩ := (numbered.onto (nodesOf t.records).length).mpr
      ⟨Int.natCast_nonneg _, Int.ofNat_lt.mpr fewer⟩
    have given : ((nodesOf t.records).length : Int) ∈ (nodesOf t.records).values :=
      List.mem_map_of_mem (Dict.get?_eq_some_iff.mp found)
    rw [mem_values_nodesOf t.distinct] at given
    omega
  · intro keep
    have numbers : ∀ p x, (nodesOf t.records).get? p = some x ↔
        ∃ (i : Nat) (node : Node), t.records[i]? = some node ∧ node.pid = p ∧ (i : Int) = x :=
      fun p x => get?_nodesOf t.distinct keep
    have known : ∀ p, p ∈ t.records.map Node.pid →
        (nodesOf t.records).get? p = some (indexOf t.records p) :=
      fun p => get?_indexOf t.distinct keep
    refine ⟨fun p => ⟨keys_nodesOf, fun listed => ?_⟩, fun x => ⟨?_, ?_⟩, ?_,
      fun p x => get?_inverted t.distinct, ⟨_, addList_eq t.distinct keep fun node => t.ppid_known, ?_⟩,
      ⟨t.records.map Node.pid, ?_, List.length_map _, fun i p => ?_⟩⟩
    · rw [← Dict.get?_isSome_iff, known p listed]
      rfl
    · rintro ⟨p, found⟩
      obtain ⟨i, node, there, -, rfl⟩ := (numbers p x).mp found
      exact ⟨Int.natCast_nonneg i, Int.ofNat_lt.mpr (List.getElem?_eq_some_iff.mp there).1⟩
    · rintro ⟨positive, below⟩
      have inside : x.toNat < t.records.length := by omega
      exact ⟨_, (numbers _ x).mpr
        ⟨x.toNat, _, List.getElem?_eq_getElem inside, rfl, Int.toNat_of_nonneg positive⟩⟩
    · intro p q x first second
      obtain ⟨i, node, there, rfl, rfl⟩ := (numbers p x).mp first
      obtain ⟨j, other, here, rfl, same⟩ := (numbers q _).mp second
      obtain rfl := Int.ofNat.inj same
      rw [there] at here
      cases here
      rfl
    · rw [t.filter_ppid, List.forall₂_map_right_iff, List.forall₂_same]
      intro node later
      have listed := List.mem_of_mem_tail later
      rw [← t.filter_ppid, List.mem_filter] at later
      exact ⟨known _ (t.ppid_known listed (by simpa using later.2)), known _ (List.mem_map_of_mem listed)⟩
    · have each : ∀ i ∈ List.range t.records.length,
          subscript (inverted (nodesOf t.records)) (i : Int) =
            .ok ((t.records.map Node.pid).getD i 0) := by
        intro i inside
        rw [List.mem_range] at inside
        have found := (numbers _ i).mpr ⟨i, _, List.getElem?_eq_getElem inside, rfl, rfl⟩
        rw [subscript, (get?_inverted t.distinct).mpr found]
        simp [inside]
      have listed : (List.range t.records.length).map ((t.records.map Node.pid).getD · 0) =
          t.records.map Node.pid := by
        refine List.ext_getElem (by simp) fun i _ inside => ?_
        simp [List.length_map .. ▸ inside]
      rw [labels, mapM_ok each, listed]
    · rw [numbers, List.getElem?_map, Option.map_eq_some_iff]
      constructor
      · rintro ⟨node, there, rfl⟩
        exact ⟨i, node, there, rfl, rfl⟩
      · rintro ⟨j, node, there, rfl, same⟩
        obtain rfl := Int.ofNat.inj same
        exact ⟨node, there, rfl⟩

/-- A process with the pid 1 in the third place. -/
def lowPid : ProcessTree where
  records := [⟨-1, 7, 0⟩, ⟨7, 8, 1⟩, ⟨8, 1, 2⟩]
  distinct := by decide
  nonneg := by decide
  root := by
    rintro node ⟨⟩
    rfl
  parents := by
    rintro (_ | _ | i) node found
    · cases found
      exact ⟨0, Nat.le_refl 0, _, rfl, rfl⟩
    · cases found
      exact ⟨1, Nat.le_refl 1, _, rfl, rfl⟩
    · cases found

/-- Two numbers are given when the pid 1 comes, and 1 is one of them: it gets none,
and the edge to it raises a `KeyError`. -/
theorem low_pid_is_skipped : ¬ Numbered lowPid.records := by
  intro numbered
  obtain ⟨edges, listed, -⟩ := numbered.edges
  have raised : addList lowPid.records = .error ⟨1⟩ := by decide
  rw [raised] at listed
  cases listed

end ProcessTree

end Comp304.Psvis
