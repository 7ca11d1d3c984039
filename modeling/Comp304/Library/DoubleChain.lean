import Comp304.Library.LinkedChain

/-! Chains that are linked both ways. Read forwards from the head and backwards
from the tail they have the same nodes, so that each law about the one direction is
a law about the other, and an edit is two edits of a singly linked chain. -/
namespace Comp304.Library.LinkedChain

/-- Forwards from `head` these are the nodes, and backwards from `tail` the same. -/
structure Doubly (null : α) (next prev : α → α) (head tail : α) (nodes : List α) : Prop where
  forward : Chain null next head nodes
  backward : Chain null prev tail nodes.reverse

section
variable {null : α} {next next' : α → α}

theorem Chain.not_mem_rest (chain : Chain null next start (front ++ node :: back)) :
    node ∉ front ++ back := (List.nodup_cons.mp (List.nodup_middle.mp chain.nodup)).1

/-- What follows the first node. -/
theorem Chain.rest (chain : Chain null next start (node :: nodes)) : Chain null next (next node) nodes :=
  (chain_cons.mp chain).2.2

theorem Chain.second (chain : Chain null next start (node :: follower :: nodes)) :
    next node = follower := chain.rest.head_eq

/-! ### Edits in one direction -/

/-- A new first node. -/
theorem Chain.push (chain : Chain null next start nodes) (onward : next' new = start)
    (nonnull : new ≠ null) (same : ∀ n ∈ nodes, next' n = next n) :
    Chain null next' new (new :: nodes) :=
  chain_cons.mpr ⟨rfl, nonnull, onward ▸ chain_congr same chain⟩

/-- A new last node. -/
theorem Chain.concat [DecidableEq α] (chain : Chain null next start nodes)
    (entry : start' = if start = null then new else start)
    (turned : ∀ n ∈ nodes, next' n = if next n = null then new else next n)
    (last : next' new = null) (nonnull : new ≠ null) : Chain null next' start' (nodes ++ [new]) := by
  refine chain_append.mpr ⟨new, path_redirect chain.1 chain.2 entry turned, chain.2, ?_⟩
  exact chain_cons.mpr ⟨rfl, nonnull, chain_nil.mpr last⟩

/-- A new node behind another one. -/
theorem Chain.splice (chain : Chain null next start (front ++ node :: back)) (link : next' node = new)
    (onward : next' new = next node) (nonnull : new ≠ null)
    (same : ∀ n ∈ front ++ back, next' n = next n) :
    Chain null next' start (front ++ node :: new :: back) := by
  have front' : Path next' start front node :=
    path_congr (fun n inside => same n (List.mem_append_left _ inside)) chain.front_path
  have rest : Chain null next' new (new :: back) :=
    chain.next_chain.push onward nonnull fun n inside => same n (List.mem_append_right _ inside)
  refine chain_append.mpr ⟨node, front', fun inside => chain.2 (List.mem_append_left _ inside), ?_⟩
  exact chain_cons.mpr ⟨rfl, chain.ne_null (by simp), link.symm ▸ rest⟩

/-- A new node in front of another one, by turning every link to that one. -/
theorem Chain.graft [DecidableEq α] (chain : Chain null next start (front ++ node :: back))
    (entry : start' = if start = node then new else start)
    (turned : ∀ n ∈ front, next' n = if next n = node then new else next n)
    (onward : next' new = node) (nonnull : new ≠ null) (same : ∀ n ∈ node :: back, next' n = next n) :
    Chain null next' start' (front ++ new :: node :: back) :=
  chain.redirect entry turned (chain.suffix.push onward nonnull same)

/-- A node is taken out, by turning every link to it. -/
theorem Chain.drop [DecidableEq α] (chain : Chain null next start (front ++ node :: back))
    (entry : start' = if start = node then next node else start)
    (turned : ∀ n ∈ front ++ back, next' n = if next n = node then next node else next n) :
    Chain null next' start' (front ++ back) := by
  refine chain.redirect entry (fun n inside => turned n (List.mem_append_left _ inside)) ?_
  refine chain_congr (fun n inside => ?_) chain.next_chain
  have elsewhere : next n ≠ node := chain.suffix.next_ne_first (List.mem_cons_of_mem _ inside)
  rw [turned n (List.mem_append_right _ inside), if_neg elsewhere]

end

section
variable {null head tail : α} {next next' prev prev' : α → α} {nodes : List α}

theorem Doubly.reverse (doubly : Doubly null next prev head tail nodes) :
    Doubly null prev next tail head nodes.reverse :=
  ⟨doubly.backward, by rw [List.reverse_reverse]; exact doubly.forward⟩

theorem doubly_nil : Doubly null next prev null null [] := ⟨chain_nil.mpr rfl, chain_nil.mpr rfl⟩

theorem Doubly.congr (doubly : Doubly null next prev head tail nodes)
    (nexts : ∀ n ∈ nodes, next' n = next n) (prevs : ∀ n ∈ nodes, prev' n = prev n) :
    Doubly null next' prev' head tail nodes :=
  ⟨chain_congr nexts doubly.forward,
    chain_congr (fun n inside => prevs n (List.mem_reverse.mp inside)) doubly.backward⟩

/-- A link forwards between two nodes is a link backwards. -/
theorem Doubly.link (doubly : Doubly null next prev head tail nodes) (inside : n ∈ nodes)
    (inside' : m ∈ nodes) (forward : next n = m) : prev m = n := by
  obtain ⟨front, back, rfl⟩ := List.append_of_mem inside
  cases back with
  | nil =>
    have last := doubly.forward.next_last
    exact absurd (forward.symm.trans last) (doubly.forward.ne_null inside')
  | cons second back =>
    have next := doubly.forward.next_eq
    obtain rfl := next.symm.trans forward
    have backward := doubly.backward
    simp only [List.reverse_append, List.reverse_cons, List.append_assoc, List.singleton_append] at backward
    exact backward.next_eq

theorem Doubly.next_eq_iff (doubly : Doubly null next prev head tail nodes) (inside : n ∈ nodes)
    (inside' : m ∈ nodes) : next n = m ↔ prev m = n :=
  ⟨doubly.link inside inside',
    doubly.reverse.link (List.mem_reverse.mpr inside') (List.mem_reverse.mpr inside)⟩

/-- The last node is the one that leads nowhere. -/
theorem Doubly.tail_eq_iff (doubly : Doubly null next prev head tail nodes) (inside : n ∈ nodes) :
    tail = n ↔ next n = null := by
  obtain ⟨front, back, rfl⟩ := List.append_of_mem inside
  have backward := doubly.backward
  simp only [List.reverse_append, List.reverse_cons, List.append_assoc, List.singleton_append] at backward
  rw [backward.start_eq_iff, List.reverse_eq_nil_iff]
  cases back with
  | nil => exact iff_of_true rfl doubly.forward.next_last
  | cons second back =>
    refine iff_of_false (List.cons_ne_nil _ _) ?_
    rw [doubly.forward.next_eq]
    exact doubly.forward.ne_null (by simp)

theorem Doubly.head_eq_iff (doubly : Doubly null next prev head tail nodes) (inside : n ∈ nodes) :
    head = n ↔ prev n = null := doubly.reverse.tail_eq_iff (List.mem_reverse.mpr inside)

/-! ### Edits in both directions -/

variable [DecidableEq α]

/-- A new first node. -/
theorem Doubly.push (doubly : Doubly null next prev head tail nodes) (nonnull : new ≠ null)
    (onward : next' new = head) (first : prev' new = null) (nexts : ∀ n ∈ nodes, next' n = next n)
    (prevs : ∀ n ∈ nodes, prev' n = if head = n then new else prev n)
    (last : tail' = if tail = null then new else tail) :
    Doubly null next' prev' new tail' (new :: nodes) := by
  refine ⟨doubly.forward.push onward nonnull nexts, ?_⟩
  rw [List.reverse_cons]
  refine doubly.backward.concat last (fun n inside => ?_) first nonnull
  have member := List.mem_reverse.mp inside
  rw [prevs n member]
  exact if_congr (doubly.head_eq_iff member) rfl rfl

/-- A new node behind another one. -/
theorem Doubly.insert (doubly : Doubly null next prev head tail (front ++ node :: back))
    (nonnull : new ≠ null) (link : next' node = new) (onward : next' new = next node)
    (nexts : ∀ n ∈ front ++ back, next' n = next n) (backward : prev' new = node)
    (prevs : ∀ n ∈ front ++ node :: back, prev' n = if prev n = node then new else prev n)
    (last : tail' = if tail = node then new else tail) :
    Doubly null next' prev' head tail' (front ++ node :: new :: back) := by
  refine ⟨doubly.forward.splice link onward nonnull nexts, ?_⟩
  have behind := doubly.backward
  simp only [List.reverse_append, List.reverse_cons, List.append_assoc, List.singleton_append] at behind ⊢
  refine behind.graft last (fun n inside => ?_) backward nonnull fun n inside => ?_
  · exact prevs n (by simp [List.mem_reverse.mp inside])
  · have elsewhere : prev n ≠ node := behind.suffix.next_ne_first inside
    rw [prevs n ?_, if_neg elsewhere]
    obtain rfl | before := List.mem_cons.mp inside
    · simp
    · simp [List.mem_reverse.mp before]

/-- A node is taken out. -/
theorem Doubly.remove (doubly : Doubly null next prev head tail (front ++ node :: back))
    (nexts : ∀ n ∈ front ++ back, next' n = if next n = node then next node else next n)
    (prevs : ∀ n ∈ front ++ back, prev' n = if prev n = node then prev node else prev n)
    (first : head' = if head = node then next node else head)
    (last : tail' = if tail = node then prev node else tail) :
    Doubly null next' prev' head' tail' (front ++ back) := by
  refine ⟨doubly.forward.drop first nexts, ?_⟩
  have behind := doubly.backward
  simp only [List.reverse_append, List.reverse_cons, List.append_assoc, List.singleton_append] at behind ⊢
  refine behind.drop last fun n inside => prevs n ?_
  simpa [or_comm] using inside

end

end Comp304.Library.LinkedChain
