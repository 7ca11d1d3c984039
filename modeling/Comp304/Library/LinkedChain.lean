import Mathlib.Data.List.Induction
import Mathlib.Data.List.Nodup

/-! Singly linked chains read off a successor function. A chain that reaches
its terminator is determined by its first node, visits no node twice, and is
changed by an update of the successor function only at the updated nodes. -/
namespace Comp304.Library.LinkedChain

/-- Following `next` from `start` visits exactly these nodes, in this order,
and then arrives at `finish`. -/
def Path (next : α → α) : α → List α → α → Prop
  | start, [], finish => start = finish
  | start, node :: nodes, finish => start = node ∧ Path next (next node) nodes finish

/-- A path that ends at the terminator and does not meet it before. -/
def Chain (null : α) (next : α → α) (start : α) (nodes : List α) : Prop :=
  Path next start nodes null ∧ null ∉ nodes

/-- The nodes found by following `next` from the start up to the terminator. -/
inductive Reach (null : α) (next : α → α) (start : α) : α → Prop where
  | start : start ≠ null → Reach null next start start
  | next : Reach null next start node → next node ≠ null → Reach null next start (next node)

/-- The second node comes right after the first. -/
def Follows (nodes : List α) (before node : α) : Prop := (before, node) ∈ nodes.zip nodes.tail

instance [DecidableEq α] (nodes : List α) (before node : α) : Decidable (Follows nodes before node) :=
  inferInstanceAs (Decidable (_ ∈ _))

variable {null : α} {next next' : α → α}

@[simp] theorem path_nil : Path next start [] finish ↔ start = finish := Iff.rfl

@[simp] theorem path_cons : Path next start (node :: nodes) finish ↔
    start = node ∧ Path next (next node) nodes finish := Iff.rfl

theorem path_append : Path next start (front ++ back) finish ↔
    ∃ middle, Path next start front middle ∧ Path next middle back finish := by
  induction front generalizing start with
  | nil => simp
  | cons node front ih => simp [ih, and_assoc]

/-- A path reads the successors of its own nodes only. -/
theorem path_congr (same : ∀ node ∈ nodes, next' node = next node)
    (path : Path next start nodes finish) : Path next' start nodes finish := by
  induction nodes generalizing start with
  | nil => exact path
  | cons node nodes ih =>
    refine ⟨path.1, ?_⟩
    rw [same node (by simp)]
    exact ih (fun other member => same other (by simp [member])) path.2

theorem chain_congr (same : ∀ node ∈ nodes, next' node = next node)
    (chain : Chain null next start nodes) : Chain null next' start nodes :=
  ⟨path_congr same chain.1, chain.2⟩

@[simp] theorem chain_nil : Chain null next start [] ↔ start = null := by simp [Chain]

theorem chain_cons : Chain null next start (node :: nodes) ↔
    start = node ∧ node ≠ null ∧ Chain null next (next node) nodes := by
  constructor
  · rintro ⟨⟨rfl, rest⟩, absent⟩
    simp only [List.mem_cons, not_or] at absent
    exact ⟨rfl, Ne.symm absent.1, rest, absent.2⟩
  · rintro ⟨rfl, nonnull, rest, absent⟩
    exact ⟨⟨rfl, rest⟩, by simp [Ne.symm nonnull, absent]⟩

/-- A chain cut in two: a path to the first node of the rest, and the rest. -/
theorem chain_append : Chain null next start (front ++ back) ↔
    ∃ middle, Path next start front middle ∧ null ∉ front ∧ Chain null next middle back := by
  constructor
  · rintro ⟨path, absent⟩
    obtain ⟨middle, first, second⟩ := path_append.mp path
    simp only [List.mem_append, not_or] at absent
    exact ⟨middle, first, absent.1, second, absent.2⟩
  · rintro ⟨middle, first, absent, second, absent'⟩
    exact ⟨path_append.mpr ⟨middle, first, second⟩, by simp [absent, absent']⟩

/-- The chain from a node met on the way. -/
theorem Chain.suffix (chain : Chain null next start (front ++ node :: back)) :
    Chain null next node (node :: back) := by
  obtain ⟨middle, _, _, rest⟩ := chain_append.mp chain
  obtain ⟨rfl, nonnull, tail⟩ := chain_cons.mp rest
  exact rest

/-- The path to a node met on the way. -/
theorem Chain.front_path (chain : Chain null next start (front ++ node :: back)) :
    Path next start front node := by
  obtain ⟨middle, path, _, rest⟩ := chain_append.mp chain
  obtain ⟨rfl, _, _⟩ := chain_cons.mp rest
  exact path

theorem Chain.next_chain (chain : Chain null next start (front ++ node :: back)) :
    Chain null next (next node) back := (chain_cons.mp chain.suffix).2.2

theorem Chain.ne_null (chain : Chain null next start nodes) (member : node ∈ nodes) :
    node ≠ null := fun same => chain.2 (same ▸ member)

/-- The start of a nonempty chain is its first node. -/
theorem Chain.head_eq (chain : Chain null next start (node :: nodes)) : start = node :=
  (chain_cons.mp chain).1

/-- A chain that has nodes does not start at the terminator. -/
theorem Chain.start_ne_null (chain : Chain null next start nodes) (nonempty : nodes ≠ []) :
    start ≠ null := by
  obtain ⟨first, rest, rfl⟩ := List.exists_cons_of_ne_nil nonempty
  rw [chain.head_eq]
  exact chain.ne_null List.mem_cons_self

/-- A successor inside the chain is the node that follows. -/
theorem Chain.next_eq (chain : Chain null next start (front ++ node :: follower :: back)) :
    next node = follower := chain.next_chain.head_eq

/-- The last node leads to the terminator. -/
theorem Chain.next_last (chain : Chain null next start (front ++ [node])) : next node = null := by
  simpa using chain.next_chain

/-- A path from the start of a chain that stays off the terminator runs along it. -/
theorem Chain.along_path (chain : Chain null next start nodes) (path : Path next start front node)
    (passed : null ∉ front) (nonnull : node ≠ null) : ∃ back, nodes = front ++ node :: back := by
  induction front generalizing start nodes with
  | nil =>
    obtain rfl : start = node := path
    cases nodes with
    | nil => exact absurd (chain_nil.mp chain) nonnull
    | cons first rest => exact ⟨rest, by rw [chain.head_eq]; rfl⟩
  | cons first front ih =>
    obtain ⟨rfl, path⟩ := path
    simp only [List.mem_cons, not_or] at passed
    cases nodes with
    | nil => exact absurd (chain_nil.mp chain).symm passed.1
    | cons second rest =>
      obtain ⟨rfl, -, tail⟩ := chain_cons.mp chain
      obtain ⟨back, rfl⟩ := ih tail path passed.2
      exact ⟨back, rfl⟩

theorem chain_unique (first : Chain null next start nodes)
    (second : Chain null next start nodes') : nodes = nodes' := by
  induction nodes generalizing start nodes' with
  | nil =>
    cases nodes' with
    | nil => rfl
    | cons node rest =>
      obtain ⟨rfl, nonnull, _⟩ := chain_cons.mp second
      exact absurd (chain_nil.mp first) nonnull
  | cons node rest ih =>
    obtain ⟨rfl, nonnull, tail⟩ := chain_cons.mp first
    cases nodes' with
    | nil => exact absurd (chain_nil.mp second) nonnull
    | cons node' rest' =>
      obtain ⟨rfl, _, tail'⟩ := chain_cons.mp second
      rw [ih tail tail']

/-- A chain that ends visits no node twice. -/
theorem Chain.nodup (chain : Chain null next start nodes) : nodes.Nodup := by
  induction nodes generalizing start with
  | nil => exact List.nodup_nil
  | cons node rest ih =>
    obtain ⟨rfl, nonnull, tail⟩ := chain_cons.mp chain
    refine List.nodup_cons.mpr ⟨?_, ih tail⟩
    intro again
    obtain ⟨front, back, split⟩ := List.append_of_mem again
    -- the same node would start both the whole chain and a shorter one
    have shorter : Chain null next start (start :: back) := (split ▸ tail).suffix
    have same := congrArg List.length (chain_unique chain shorter)
    have length := congrArg List.length split
    simp only [List.length_cons, List.length_append] at same length
    omega

/-- Following the successors finds exactly the nodes of the chain. -/
theorem Chain.reach_iff (chain : Chain null next start nodes) :
    Reach null next start node ↔ node ∈ nodes := by
  constructor
  · intro reach
    induction reach with
    | start nonnull =>
      cases nodes with
      | nil => exact absurd (chain_nil.mp chain) nonnull
      | cons first rest => simp [chain.head_eq]
    | next _ nonnull ih =>
      obtain ⟨front, back, rfl⟩ := List.append_of_mem ih
      cases back with
      | nil => exact absurd chain.next_last nonnull
      | cons follower back => simp [chain.next_eq]
  · intro member
    obtain ⟨front, back, split⟩ := List.append_of_mem member
    subst split
    induction front using List.reverseRecOn generalizing node back with
    | nil => exact chain.head_eq ▸ .start (chain.head_eq ▸ chain.ne_null (by simp))
    | append_singleton front last ih =>
      have split : front ++ [last] ++ node :: back = front ++ last :: node :: back := by simp
      rw [split] at chain
      have step := chain.next_eq
      exact step ▸ .next (ih (node :: back) chain (by simp)) (step ▸ chain.ne_null (by simp))

theorem follows_iff : Follows nodes before node ↔
    ∃ front back, nodes = front ++ before :: node :: back := by
  unfold Follows
  constructor
  · intro member
    induction nodes with
    | nil => simp at member
    | cons first rest ih =>
      cases rest with
      | nil => simp at member
      | cons second rest =>
        simp only [List.tail_cons, List.zip_cons_cons, List.mem_cons, Prod.mk.injEq] at member
        cases member with
        | inl here => exact ⟨[], rest, by simp [here.1, here.2]⟩
        | inr later =>
          obtain ⟨front, back, split⟩ := ih (by simpa using later)
          exact ⟨first :: front, back, by simp [split]⟩
  · rintro ⟨front, back, rfl⟩
    induction front with
    | nil => simp
    | cons first front ih =>
      cases front with
      | nil => simp
      | cons second front => simpa using Or.inr ih

/-- Chains over the same nodes start at the same one. -/
theorem Chain.start_unique (first : Chain null next start nodes)
    (second : Chain null next' start' nodes) : start = start' := by
  cases nodes with
  | nil => exact (chain_nil.mp first).trans (chain_nil.mp second).symm
  | cons node nodes => exact first.head_eq.trans second.head_eq.symm

/-- Nothing follows the last node. -/
theorem Chain.not_follows_last (chain : Chain null next start (front ++ [node])) :
    ¬ Follows (front ++ [node]) node other := by
  intro follows
  obtain ⟨left, right, split⟩ := follows_iff.mp follows
  have leads : next node = other := (split ▸ chain).next_eq
  have listed : other ∈ front ++ [node] := by
    rw [split]
    simp
  exact chain.ne_null listed (leads.symm.trans chain.next_last)

/-- Only the node before it leads to a node of the chain. -/
theorem Chain.before_unique (chain : Chain null next start (front ++ before :: node :: back))
    (member : other ∈ front ++ before :: node :: back) (leads : next other = node) :
    other = before := by
  obtain ⟨left, right, split⟩ := List.append_of_mem member
  -- both lead to the chain from `node`, so the lists agree up to there
  have first := (split ▸ chain).next_chain
  have second := chain.next_chain
  rw [leads] at first
  rw [chain.next_eq] at second
  have tails : right = node :: back := chain_unique first second
  subst tails
  have heads := (List.append_inj' split rfl).2
  exact (List.cons.inj heads).1.symm

/-- A node with another one before it is not the first. -/
theorem Chain.start_ne (chain : Chain null next start (front ++ before :: node :: back)) :
    start ≠ node := by
  have distinct := chain.nodup
  rintro rfl
  cases front with
  | nil =>
    have first := chain.head_eq
    simp [first] at distinct
  | cons first front =>
    rw [List.cons_append] at chain distinct
    have same := chain.head_eq
    simp [same] at distinct

theorem Chain.not_mem_front (chain : Chain null next start (front ++ node :: back)) :
    node ∉ front := fun inFront =>
  (List.nodup_append.mp chain.nodup).2.2 _ inFront _ List.mem_cons_self rfl

/-- The node a chain starts at is the one with nothing in front of it. -/
theorem Chain.start_eq_iff (chain : Chain null next start (front ++ node :: back)) :
    start = node ↔ front = [] := by
  cases front using List.reverseRecOn with
  | nil => exact iff_of_true chain.head_eq rfl
  | append_singleton front before =>
    rw [List.append_assoc, List.singleton_append] at chain
    exact iff_of_false chain.start_ne (by simp)

/-- The last node is the one with nothing behind it. -/
theorem Chain.last_eq_iff (chain : Chain null next start (front ++ node :: back)) :
    (front ++ node :: back).getLast? = some node ↔ back = [] := by
  have distinct := chain.suffix.nodup
  cases back using List.reverseRecOn with
  | nil => simp
  | append_singleton back last =>
    refine iff_of_false (fun same => ?_) (by simp)
    rw [← List.cons_append, ← List.append_assoc, List.getLast?_concat] at same
    simp [Option.some.inj same] at distinct

/-- No node of a chain leads to its first. -/
theorem Chain.next_ne_first (chain : Chain null next start (first :: back))
    (member : node ∈ first :: back) : next node ≠ first := by
  intro leads
  obtain ⟨left, right, split⟩ := List.append_of_mem member
  have rest := (split ▸ chain).next_chain
  rw [leads, ← chain.head_eq] at rest
  have same := congrArg List.length (chain_unique rest chain)
  have length := congrArg List.length split
  simp only [List.length_cons, List.length_append] at same length
  omega

/-- A node with another one behind it does not lead to the terminator. -/
theorem Chain.next_ne_null (chain : Chain null next start (front ++ follower :: back))
    (member : node ∈ front) : next node ≠ null := by
  obtain ⟨left, right, rfl⟩ := List.append_of_mem member
  rw [List.append_assoc, List.cons_append] at chain
  have rest := chain.next_chain
  cases right with
  | nil => exact rest.head_eq ▸ rest.ne_null (by simp)
  | cons second right => exact rest.head_eq ▸ rest.ne_null (by simp)

/-- A node of a chain leads to a node of it, or to the terminator. -/
theorem Chain.next_mem (chain : Chain null next start nodes) (member : node ∈ nodes) :
    next node = null ∨ next node ∈ nodes := by
  obtain ⟨front, back, rfl⟩ := List.append_of_mem member
  have rest := chain.next_chain
  cases back with
  | nil => exact Or.inl (chain_nil.mp rest)
  | cons follower back =>
    rw [rest.head_eq]
    exact Or.inr (by simp)

/-- No node of a chain leads to itself. -/
theorem Chain.no_loop (chain : Chain null next start nodes) (member : node ∈ nodes) :
    next node ≠ node := by
  intro loop
  obtain ⟨front, back, rfl⟩ := List.append_of_mem member
  have distinct := chain.suffix.nodup
  cases back with
  | nil => exact chain.ne_null member (loop.symm.trans chain.next_last)
  | cons follower back => simp [← chain.next_eq, loop] at distinct

/-- Turning every link to `old` into a link to `new`, the start included, turns
a path to the one into a path to the other. -/
theorem path_redirect [DecidableEq α] {old new : α} (path : Path next start nodes old)
    (absent : old ∉ nodes) (entry : start' = if start = old then new else start)
    (turned : ∀ node ∈ nodes, next' node = if next node = old then new else next node) :
    Path next' start' nodes new := by
  induction nodes generalizing start start' with
  | nil => exact entry.trans (if_pos path)
  | cons node nodes ih =>
    obtain ⟨rfl, rest⟩ := path
    simp only [List.mem_cons, not_or] at absent
    rw [if_neg (Ne.symm absent.1)] at entry
    subst entry
    exact ⟨rfl, ih rest absent.2 (turned _ (by simp)) fun other member =>
      turned other (by simp [member])⟩

/-- A node of a chain is replaced by another chain, by turning every link to it. -/
theorem Chain.redirect [DecidableEq α] {old new : α}
    (chain : Chain null next start (front ++ old :: back))
    (entry : start' = if start = old then new else start)
    (turned : ∀ node ∈ front, next' node = if next node = old then new else next node)
    (rest : Chain null next' new back') : Chain null next' start' (front ++ back') := by
  have absent : old ∉ front := chain.not_mem_front
  have nonnull : null ∉ front := fun inFront =>
    chain.2 (List.mem_append_left _ inFront)
  exact chain_append.mpr ⟨new, path_redirect chain.front_path absent entry turned, nonnull, rest⟩

/-! ### Links back -/

/-- Every node but the first has the one in front of it as its `prev`. -/
def Mirrored (prev : α → α) (nodes : List α) : Prop :=
  ∀ before node, Follows nodes before node → prev node = before

section
variable {prev prev' : α → α}

theorem Mirrored.left (mirrored : Mirrored prev (front ++ back)) : Mirrored prev front := by
  intro before node follows
  obtain ⟨left, right, rfl⟩ := follows_iff.mp follows
  exact mirrored before node (follows_iff.mpr ⟨left, right ++ back, by simp⟩)

theorem Mirrored.right (mirrored : Mirrored prev (front ++ back)) : Mirrored prev back := by
  intro before node follows
  obtain ⟨left, right, rfl⟩ := follows_iff.mp follows
  exact mirrored before node (follows_iff.mpr ⟨front ++ left, right, by simp⟩)

theorem mirrored_nil : Mirrored prev [] := nofun

theorem mirrored_single (node : α) : Mirrored prev [node] := nofun

theorem mirrored_cons : Mirrored prev (first :: second :: nodes) ↔
    prev second = first ∧ Mirrored prev (second :: nodes) := by
  constructor
  · intro mirrored
    have split : Mirrored prev ([first] ++ second :: nodes) := mirrored
    exact ⟨mirrored first second (follows_iff.mpr ⟨[], nodes, rfl⟩), split.right⟩
  · rintro ⟨link, rest⟩ before node follows
    obtain here | later := List.mem_cons.mp follows
    · cases here
      exact link
    · exact rest before node later

/-- A list cut between two nodes. -/
theorem mirrored_append : Mirrored prev (front ++ before :: node :: back) ↔
    Mirrored prev (front ++ [before]) ∧ prev node = before ∧ Mirrored prev (node :: back) := by
  induction front with
  | nil =>
    rw [List.nil_append, mirrored_cons]
    exact (and_iff_right (mirrored_single before)).symm
  | cons first front ih =>
    cases front with
    | nil =>
      rw [List.cons_append, List.nil_append, mirrored_cons, mirrored_cons, List.cons_append,
        List.nil_append, mirrored_cons]
      exact ⟨fun ⟨one, two, rest⟩ => ⟨⟨one, mirrored_single before⟩, two, rest⟩,
        fun ⟨⟨one, _⟩, two, rest⟩ => ⟨one, two, rest⟩⟩
    | cons second front =>
      simp only [List.cons_append] at ih ⊢
      rw [mirrored_cons, mirrored_cons, ih, and_assoc]

/-- The first node's own link back does not matter. -/
theorem mirrored_congr (same : ∀ node ∈ nodes.tail, prev' node = prev node) :
    Mirrored prev' nodes ↔ Mirrored prev nodes := by
  have each (before node : α) (follows : Follows nodes before node) : prev' node = prev node :=
    same node (List.of_mem_zip follows).2
  exact forall₂_congr fun before node => forall_congr' fun follows => by rw [each before node follows]

/-- A node gives its place to another one. No other link back is written, so the one
behind it still has the old node as its `prev`. -/
theorem mirrored_exchange (mirrored : Mirrored prev (front ++ old :: back)) (other : new ≠ old)
    (taken : front ≠ [] → prev' new = prev old)
    (same : ∀ node ∈ front ++ back, prev' node = prev node) :
    Mirrored prev' (front ++ new :: back) ↔ back = [] := by
  constructor
  · intro mirrored'
    cases back with
    | nil => rfl
    | cons after back =>
      have link := (mirrored_cons.mp mirrored.right).1
      have link' := (mirrored_cons.mp mirrored'.right).1
      rw [same after (by simp), link] at link'
      exact absurd link'.symm other
  · rintro rfl
    cases front using List.reverseRecOn with
    | nil => exact mirrored_single new
    | append_singleton front before =>
      rw [List.append_assoc, List.singleton_append] at mirrored ⊢
      obtain ⟨first, link, -⟩ := mirrored_append.mp mirrored
      refine mirrored_append.mpr ⟨(mirrored_congr fun node inside => ?_).mpr first, ?_,
        mirrored_single new⟩
      · exact same node (List.mem_append_left _ (List.mem_of_mem_tail inside))
      · rw [taken (by simp), link]

/-- A node is taken out, and no link back is written. -/
theorem mirrored_remove (mirrored : Mirrored prev (front ++ old :: back)) (absent : old ∉ front)
    (same : ∀ node ∈ front ++ back, prev' node = prev node) :
    Mirrored prev' (front ++ back) ↔ front = [] ∨ back = [] := by
  constructor
  · intro mirrored'
    cases front using List.reverseRecOn with
    | nil => exact Or.inl rfl
    | append_singleton front before =>
      cases back with
      | nil => exact Or.inr rfl
      | cons after back =>
        have link := (mirrored_cons.mp mirrored.right).1
        rw [List.append_assoc, List.singleton_append] at mirrored'
        have link' := (mirrored_append.mp mirrored').2.1
        rw [same after (by simp), link] at link'
        exact absurd (by simp [link']) absent
  · rintro (rfl | rfl)
    · have rest := (show Mirrored prev ([old] ++ back) from mirrored).right
      exact (mirrored_congr fun node inside => same node (List.mem_of_mem_tail inside)).mpr rest
    · rw [List.append_nil] at same ⊢
      exact (mirrored_congr fun node inside => same node (List.mem_of_mem_tail inside)).mpr
        mirrored.left

/-- A node gives its place to another one, with both links back. -/
theorem mirrored_replace (mirrored : Mirrored prev (front ++ before :: old :: after :: back))
    (link : prev' new = before) (link' : prev' after = new)
    (same : ∀ node ∈ front ++ before :: back, prev' node = prev node) :
    Mirrored prev' (front ++ before :: new :: after :: back) := by
  obtain ⟨first, -, rest⟩ := mirrored_append.mp mirrored
  refine mirrored_append.mpr ⟨(mirrored_congr fun node inside => same node ?_).mpr first, link,
    mirrored_cons.mpr ⟨link', (mirrored_congr fun node inside => same node ?_).mpr
      (mirrored_cons.mp rest).2⟩⟩
  · have member := List.mem_of_mem_tail inside
    simp only [List.mem_append, List.mem_cons, List.not_mem_nil, or_false] at member ⊢
    exact member.imp_right Or.inl
  · exact List.mem_append_right _ (List.mem_cons_of_mem _ inside)

/-- A new first node. -/
theorem mirrored_push (mirrored : Mirrored prev (first :: nodes)) (link : prev' first = new)
    (same : ∀ node ∈ nodes, prev' node = prev node) : Mirrored prev' (new :: first :: nodes) :=
  mirrored_cons.mpr ⟨link, (mirrored_congr same).mpr mirrored⟩

/-- A node is taken out, and the one behind it becomes its own `prev`. -/
theorem mirrored_loop (mirrored : Mirrored prev (front ++ old :: node :: back))
    (absent : node ∉ front) (loop : prev' node = node)
    (same : ∀ node ∈ front ++ back, prev' node = prev node) :
    Mirrored prev' (front ++ node :: back) ↔ front = [] := by
  constructor
  · intro mirrored'
    cases front using List.reverseRecOn with
    | nil => rfl
    | append_singleton front before =>
      rw [List.append_assoc, List.singleton_append] at mirrored'
      have link := (mirrored_append.mp mirrored').2.1
      rw [loop] at link
      exact absurd (by simp [link]) absent
  · rintro rfl
    exact (mirrored_congr same).mpr (mirrored_cons.mp mirrored).2

end

end Comp304.Library.LinkedChain
