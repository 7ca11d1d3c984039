import Comp304.Alloc.CleanRuns

/-! Blocks freed one by one come back in the reverse order. No heap in order is
needed for it, and the heap does not stay in order: in a node of sixteen bytes
the `prev` is the next block's header. What matters is that nothing is freed next
to anything else that is freed, so that those writes hit blocks in use only. -/
namespace Comp304.Alloc
open Library.Budget Library.Lp64 Library.Extents Library.LinkedChain Heap

/-- Free these pointers in turn. -/
def kufreeAll (sys : System) (rounds : Nat) : Heap → List Nat → Except Fault Heap
  | h, [] => .ok h
  | h, ptr :: ptrs => do
    let h ← kufree sys rounds h ptr
    kufreeAll sys rounds h ptrs

/-- Allocate these sizes in turn, and list what was returned. -/
def kumallocAll (sys : System) (rounds : Nat) : Heap → List Nat → Except Fault (List Nat × Heap)
  | h, [] => .ok ([], h)
  | h, size :: sizes => do
    let first ← kumalloc sys rounds h size
    let rest ← kumallocAll sys rounds first.2 sizes
    .ok (first.1 :: rest.1, rest.2)

/-- Nothing is on the free list, and the blocks in use lie side by side. -/
structure Packed (sys : System) (h : Heap) (live : List Block) : Prop where
  empty : h.head = 0
  tiling : Tiling sys.base h.blockEnd (live.map Block.extent)
  headers : ∀ b ∈ live, h.word b.addr = b.total
  wide : ∀ b ∈ live, 16 ≤ b.total
  below : h.blockEnd ≤ h.brk
  high : h.brk ≤ sys.limit

/-- Different blocks of one total, none of them the last one and no two of them
neighbours. -/
structure Scattered (h : Heap) (live : List Block) (total : Nat) (freed : List Block) : Prop where
  among : ∀ b ∈ freed, b ∈ live ∧ b.total = total
  distinct : freed.Nodup
  notLast : ∀ b ∈ freed, b.addr + total ≠ h.blockEnd
  apart : ∀ b ∈ freed, ∀ c ∈ freed, b.addr + total ≠ c.addr

/-- Between a block and the next of these, or the end of the heap, there are at
least sixteen bytes. -/
structure Spaced (sys : System) (stop total : Nat) (nodes : List Nat) : Prop where
  wide : ∀ n ∈ nodes, 16 ≤ total
  low : ∀ n ∈ nodes, sys.base ≤ n
  high : ∀ n ∈ nodes, n + total + 16 ≤ stop
  apart : ∀ n ∈ nodes, ∀ m ∈ nodes, n ≠ m → n + total + 16 ≤ m ∨ m + total + 16 ≤ n

/-- Of these blocks, all of one size, the ones on the free list. -/
structure Stacked (h : Heap) (total : Nat) (nodes stack : List Nat) : Prop where
  list : h.FreeList stack
  within : ∀ n ∈ stack, n ∈ nodes
  sizes : ∀ n ∈ nodes, h.word n = total

section
variable {sys : System} {h k : Heap} {live freed : List Block} {nodes stack : List Nat}

/-- Between two freed blocks there is one that is not freed. -/
theorem Scattered.spaced (scattered : Scattered h live total freed) (packed : Packed sys h live) :
    Spaced sys h.blockEnd total (freed.map Block.addr) := by
  have tiling := packed.tiling
  have tile : ∀ b ∈ freed, (⟨b.addr, total⟩ : Extent) ∈ live.map Block.extent := by
    intro b member
    obtain ⟨used, same⟩ := scattered.among b member
    exact List.mem_map.mpr ⟨b, used, by rw [Block.extent, same]⟩
  -- the block behind a freed one is in use, and not freed
  have behind : ∀ b ∈ freed, ∃ f ∈ live.map Block.extent, f.lo = b.addr + total ∧ 16 ≤ f.len ∧
      ∀ c ∈ freed, f ≠ ⟨c.addr, total⟩ := by
    intro b member
    have inside := (tiling.inside _ (tile b member)).2
    have notLast := scattered.notLast b member
    obtain ⟨f, inTiles, start⟩ := tiling.follower (tile b member)
      (by simp only [Extent.stop] at inside ⊢; omega)
    refine ⟨f, inTiles, start, ?_, fun c member' same => ?_⟩
    · obtain ⟨d, used, rfl⟩ := List.mem_map.mp inTiles
      exact packed.wide d used
    · subst same
      exact scattered.apart b member c member' start.symm
  have gap : ∀ b ∈ freed, ∀ c ∈ freed, b.addr + total ≤ c.addr → b.addr + total + 16 ≤ c.addr := by
    intro b memberB c memberC order
    obtain ⟨f, inTiles, start, wide, other⟩ := behind b memberB
    have positive := tiling.positive _ (tile c memberC)
    have apart := tiling.order inTiles (tile c memberC) (other c memberC)
    simp only [Extent.stop] at apart positive
    omega
  refine ⟨fun n member => ?_, fun n member => ?_, fun n member => ?_,
    fun n member m member' different => ?_⟩ <;>
    obtain ⟨b, inFreed, rfl⟩ := List.mem_map.mp member
  · obtain ⟨used, same⟩ := scattered.among b inFreed
    exact same ▸ packed.wide b used
  · exact (tiling.inside _ (tile b inFreed)).1
  · obtain ⟨f, inTiles, start, wide, -⟩ := behind b inFreed
    have inside := (tiling.inside f inTiles).2
    simp only [Extent.stop] at inside
    omega
  · obtain ⟨c, inFreed', rfl⟩ := List.mem_map.mp member'
    have apart := tiling.order (tile b inFreed) (tile c inFreed')
      fun same => different (congrArg Extent.lo same)
    exact apart.imp (gap b inFreed c inFreed') (gap c inFreed' b inFreed)

namespace Spaced

theorem same_or_apart (spaced : Spaced sys stop total nodes) (memberM : m ∈ nodes)
    (memberN : n ∈ nodes) : n = m ∨ n + total + 16 ≤ m ∨ m + total + 16 ≤ n := by
  by_cases same : n = m
  · exact Or.inl same
  · exact Or.inr (spaced.apart n memberN m memberM same)

/-- What is on a stack without the block is apart from it. -/
theorem others_apart (spaced : Spaced sys stop total nodes) (within : ∀ n ∈ stack, n ∈ nodes)
    (member : block ∈ nodes) (fresh : block ∉ stack) (listed : n ∈ stack) :
    n + total + 16 ≤ block ∨ block + total + 16 ≤ n := by
  refine (spaced.same_or_apart member (within n listed)).resolve_left fun same => ?_
  exact fresh (same ▸ listed)

/-- Each of the blocks is mapped, and so are sixteen bytes behind it. -/
theorem accessible (spaced : Spaced sys h.blockEnd total nodes) (below : h.blockEnd ≤ h.brk)
    (high : h.brk ≤ sys.limit) (member : n ∈ nodes) (low : n ≤ a) (up : a + 8 ≤ n + total + 16) :
    h.accessible sys a 8 = true := by
  have lowN := spaced.low n member
  have highN := spaced.high n member
  exact accessible_inside (by omega) (by omega) high

end Spaced

/-! ### One free, one allocation -/

theorem Stacked.push (stacked : Stacked h total nodes stack) (member : block ∈ nodes)
    (nonnull : block ≠ 0) (head : k.head = block) (link : k.word (block + 8) = h.head)
    (sizes : ∀ n ∈ nodes, k.word n = h.word n) (links : ∀ n ∈ stack, k.word (n + 8) = h.word (n + 8)) :
    Stacked k total nodes (block :: stack) where
  list := by
    refine chain_cons.mpr ⟨head, nonnull, ?_⟩
    have next : k.nextAt block = h.head := link
    rw [next]
    exact chain_congr links stacked.list
  within := by
    intro n listed
    cases List.mem_cons.mp listed with
    | inl same => exact same ▸ member
    | inr old => exact stacked.within n old
  sizes n listed := (sizes n listed).trans (stacked.sizes n listed)

/-- A freed block is pushed onto the free list: nothing on it is a neighbour. -/
theorem kufree_pushes (spaced : Spaced sys h.blockEnd total nodes) (below : h.blockEnd ≤ h.brk)
    (high : h.brk ≤ sys.limit) (stacked : Stacked h total nodes stack) (member : block ∈ nodes)
    (fresh : block ∉ stack) :
    ∃ k, (∀ rounds, Settles .spent stack.length rounds (kufree sys rounds h (block + 8)) (.ok k)) ∧
      SameBreak h k ∧ Stacked k total nodes (block :: stack) := by
  have limit := sys.limit_lt
  have base := sys.base_above
  have wide := spaced.wide block member
  have lowB := spaced.low block member
  have highB := spaced.high block member
  have bounds : ∀ n ∈ nodes, sys.base ≤ n ∧ n + total + 16 ≤ h.blockEnd ∧ h.word n = total :=
    fun n listed => ⟨spaced.low n listed, spaced.high n listed, stacked.sizes n listed⟩
  have mapped : ∀ n ∈ nodes, ∀ a, n ≤ a → a ≤ n + 16 → h.accessible sys a 8 = true :=
    fun n listed a low up => spaced.accessible below high listed low (by omega)
  have seen : Surveyed sys h block total stack := by
    refine ⟨fun n listed => ?_, fun n listed => ?_, mapped block member _ (by omega) (by omega),
      stacked.sizes block member, by omega⟩
    · have inNodes := stacked.within n listed
      exact ⟨mapped n inNodes _ (by omega) (by omega), mapped n inNodes _ (by omega) (by omega)⟩
    · have boundsN := bounds n (stacked.within n listed)
      omega
  have settles : ∀ rounds, Settles .spent _ rounds (kufree sys rounds h (block + 8)) _ := fun rounds =>
    kufree_settles_inside seen stacked.list (by omega) fun n listed => by
      have boundsN := bounds n (stacked.within n listed)
      omega
  have linkWrite := mapped block member (block + 8) (by omega) (by omega)
  cases stack with
  | nil =>
    have headless : h.head = 0 := chain_nil.mp stacked.list
    have plan : mergePlan sys h [] block total = .ok ((h.put (block + 8) 0).setHead block) := by
      simp only [mergePlan, if_true, setNext, store_ok linkWrite, ok_bind]
    refine ⟨_, fun rounds => (settles rounds).trans (.of_eq plan), ⟨rfl, rfl, rfl, rfl⟩,
      stacked.push member (by omega) rfl ?_ (fun n listed => ?_) (by simp)⟩
    · rw [setHead_word, word_put_same (by omega), headless]
    · have apartN := spaced.same_or_apart member listed
      rw [setHead_word, word_put_apart (by omega)]
  | cons first rest =>
    have head : h.head = first := Chain.head_eq stacked.list
    have inNodes := stacked.within first (by simp)
    have boundsF := bounds first inNodes
    have apartF := spaced.others_apart stacked.within member fresh (n := first) (by simp)
    have nonempty : ¬ first :: rest = [] := by simp
    have noLeft : h.leftOf (first :: rest) block = none := by
      refine List.find?_eq_none.mpr fun n listed ends => ?_
      have ends : n + h.word n = block := of_decide_eq_true ends
      have boundsN := bounds n (stacked.within n listed)
      have apartN := spaced.others_apart stacked.within member fresh listed
      omega
    have noRight : block + total ∉ first :: rest := fun listed => by
      have apartN := spaced.others_apart stacked.within member fresh listed
      omega
    have prevWrite : (h.put (block + 8) first).accessible sys (first + 16) 8 = true := by
      rw [put_accessible]
      exact mapped first inNodes (first + 16) (by omega) (by omega)
    have plan : mergePlan sys h (first :: rest) block total =
        .ok (((h.put (block + 8) first).put (first + 16) block).setHead block) := by
      simp only [mergePlan, if_neg nonempty, noLeft, decide_eq_false noRight, insertBlock, setNext,
        setPrev, head, put_head, store_ok linkWrite, store_ok prevWrite, ok_bind]
    refine ⟨_, fun rounds => (settles rounds).trans (.of_eq plan), ⟨rfl, rfl, rfl, rfl⟩,
      stacked.push member (by omega) rfl ?_ (fun n listed => ?_) fun n listed => ?_⟩
    · rw [setHead_word, word_put_apart (by omega), word_put_same (by omega), head]
    · have apartN := spaced.same_or_apart member listed
      -- the `prev` of the old head may be a live block's header, but no freed one's
      have apartFN := spaced.same_or_apart inNodes listed
      simp (disch := omega) only [setHead_word, word_put_apart]
    · have apartN := spaced.others_apart stacked.within member fresh listed
      have apartFN := spaced.same_or_apart inNodes (stacked.within n listed)
      simp (disch := omega) only [setHead_word, word_put_apart]

/-- What is left of the stack once its top is taken: the stores reach the block
itself, what is behind it, and the `prev` of the next node. -/
theorem Stacked.pop (stacked : Stacked h total nodes (block :: stack))
    (head : k.head = h.word (block + 8)) (sizes : ∀ n ∈ nodes, k.word n = total)
    (links : ∀ n ∈ stack, k.word (n + 8) = h.word (n + 8)) : Stacked k total nodes stack where
  list := by
    obtain ⟨-, -, rest⟩ := chain_cons.mp stacked.list
    rw [FreeList, head]
    exact chain_congr links rest
  within n listed := stacked.within n (List.mem_cons_of_mem _ listed)
  sizes := sizes

/-- The three stores a reuse begins with, on an exact fit, reach the block, and the
sixteen bytes behind it. -/
theorem Stacked.stamped (spaced : Spaced sys h.blockEnd total nodes)
    (stacked : Stacked h total nodes (block :: stack)) (small : total < 2 ^ 64) :
    (∀ n ∈ nodes, (stamp h block total 0).word n = total) ∧
      ∀ n ∈ stack, (stamp h block total 0).word (n + 8) = h.word (n + 8) := by
  have member := stacked.within block (by simp)
  have wide := spaced.wide block member
  have distinct : block ∉ stack := (List.nodup_cons.mp (Chain.nodup stacked.list)).1
  have within : ∀ n ∈ stack, n ∈ nodes := fun n listed =>
    stacked.within n (List.mem_cons_of_mem _ listed)
  constructor
  · intro n listed
    rcases spaced.same_or_apart member listed with rfl | other
    · exact stamp_header small
    · rw [stamp_word (by omega) (by omega)]
      exact stacked.sizes n listed
  · intro n listed
    have apartN := spaced.others_apart within member distinct listed
    exact stamp_word (by omega) (by omega)

/-- The head of the stack is taken whole. -/
theorem reuseBlock_pops (spaced : Spaced sys h.blockEnd total nodes) (below : h.blockEnd ≤ h.brk)
    (high : h.brk ≤ sys.limit) (stacked : Stacked h total nodes (block :: stack)) :
    ∃ k, (∀ rounds, reuseBlock sys rounds h block total = .ok k) ∧ SameBreak h k ∧
      Stacked k total nodes stack := by
  have limit := sys.limit_lt
  have member := stacked.within block (by simp)
  have wide := spaced.wide block member
  have lowB := spaced.low block member
  have highB := spaced.high block member
  have first : h.head = block := Chain.head_eq stacked.list
  have mapped : ∀ n ∈ nodes, ∀ a, n ≤ a → a + 8 ≤ n + total + 16 → h.accessible sys a 8 = true :=
    fun n listed a => spaced.accessible below high listed
  have nothing : subInt (toInt (h.word block)) (toInt total) = 0 := by
    rw [stacked.sizes block member, subInt_toInt (Nat.le_refl total), Nat.sub_self]
    decide
  obtain ⟨sizes, links⟩ := stacked.stamped spaced (by omega)
  have next : (stamp h block total 0).word (block + 8) = h.word (block + 8) := stamp_next wide
  have head : (stamp h block total 0).head = block := stamp_head.trans first
  have access : ∀ a, (stamp h block total 0).accessible sys a 8 = h.accessible sys a 8 := fun _ =>
    stamp_accessible
  have same : SameBreak h (stamp h block total 0) := ⟨rfl, rfl, rfl, rfl⟩
  have takes : ∀ k, reuseHead sys (block + total) 0 (stamp h block total 0) = .ok k →
      ∀ rounds, reuseBlock sys rounds h block total = .ok k := by
    intro k ran rounds
    refine (reuseBlock_eq_ok (by omega) (by omega)).mpr
      ⟨mapped block member _ (by omega) (by omega), mapped block member _ (by omega) (by omega),
        mapped block member _ (by omega) (by omega), ?_⟩
    rw [if_pos first, nothing]
    exact ran
  generalize stamp h block total 0 = g at sizes links next head access same takes
  have nextRead : g.accessible sys (block + 8) 8 = true :=
    (access _).trans (mapped block member _ (by omega) (by omega))
  cases stack with
  | nil =>
    have last : h.word (block + 8) = 0 :=
      last_word (show Chain 0 h.nextAt h.head ([] ++ [block]) from stacked.list)
    refine ⟨g.setHead 0, takes _ ((reuseHead_spent_eq_ok head (by decide)).mpr
      ⟨nextRead, Or.inl ⟨next.trans last, rfl⟩⟩), ⟨same.1, same.2, same.3, same.4⟩, ?_⟩
    exact stacked.pop last.symm sizes links
  | cons y ys =>
    have follows : h.word (block + 8) = y :=
      next_word (show Chain 0 h.nextAt h.head ([] ++ block :: y :: ys) from stacked.list)
    have nonnull : y ≠ 0 := Chain.ne_null stacked.list (by simp)
    have inNodes := stacked.within y (by simp)
    rw [follows] at next
    refine ⟨(g.setHead y).put (y + 16) 0, takes _ ((reuseHead_spent_eq_ok head (by decide)).mpr
      ⟨nextRead, Or.inr ⟨?_, ?_, ?_⟩⟩), ⟨same.1, same.2, same.3, same.4⟩, ?_⟩
    · rw [next]
      exact nonnull
    · rw [next, access]
      exact mapped y inNodes _ (by omega) (by omega)
    · rw [next]
    · refine stacked.pop follows.symm (fun n listed => ?_) fun n listed => ?_
      · have apartY := spaced.same_or_apart inNodes listed
        rw [word_put_apart (by omega), setHead_word]
        exact sizes n listed
      · have inNodes' := stacked.within n (List.mem_cons_of_mem _ listed)
        have apartY := spaced.same_or_apart inNodes inNodes'
        rw [word_put_apart (by omega), setHead_word]
        exact links n listed

/-- The last block freed is handed out again. -/
theorem kumalloc_pops (spaced : Spaced sys h.blockEnd total nodes) (below : h.blockEnd ≤ h.brk)
    (high : h.brk ≤ sys.limit) (stacked : Stacked h total nodes (block :: stack))
    (whole : sizeAlign (add size blockSize) = total) :
    ∃ k, (∀ rounds, Settles .spent (block :: stack).length rounds (kumalloc sys rounds h size)
        (.ok (block + 8, k))) ∧ SameBreak h k ∧ Stacked k total nodes stack := by
  have limit := sys.limit_lt
  have base := sys.base_above
  have member := stacked.within block (by simp)
  have wide := spaced.wide block member
  have lowB := spaced.low block member
  have highB := spaced.high block member
  have readable : ∀ n ∈ block :: stack,
      h.accessible sys n 8 = true ∧ h.accessible sys (n + 8) 8 = true := by
    intro n listed
    have inNodes := stacked.within n listed
    exact ⟨spaced.accessible below high inNodes (by omega) (by omega),
      spaced.accessible below high inNodes (by omega) (by omega)⟩
  have found : h.firstFit (block :: stack) total = some block := by
    have fits : total ≤ h.sizeAt block := Nat.le_of_eq (stacked.sizes block member).symm
    simp [firstFit, fits]
  have positive : 0 < size := by
    refine Nat.pos_of_ne_zero fun zero => ?_
    rw [zero] at whole
    have least : sizeAlign (add 0 blockSize) = 8 := by decide
    omega
  obtain ⟨k, ran, same, rest⟩ := reuseBlock_pops spaced below high stacked
  refine ⟨k, fun rounds => ?_, same, rest⟩
  have searched : Settles .spent _ rounds (kumalloc sys rounds h size) _ :=
    kumalloc_searched readable stacked.list positive whole
  simp only [found, ran rounds, ok_bind] at searched
  rwa [add_header (show block < 2 ^ 63 by omega)] at searched

/-! ### All of them -/

/-- Freeing the blocks in turn stacks them up. -/
theorem kufreeAll_stacks (spaced : Spaced sys h.blockEnd total nodes) (below : h.blockEnd ≤ h.brk)
    (high : h.brk ≤ sys.limit) (stacked : Stacked h total nodes stack)
    (members : ∀ n ∈ blocks, n ∈ nodes) (distinct : (blocks ++ stack).Nodup) :
    ∃ k, (∀ rounds, blocks.length + stack.length < rounds →
        kufreeAll sys rounds h (blocks.map (· + 8)) = .ok k) ∧
      SameBreak h k ∧ Stacked k total nodes (blocks.reverse ++ stack) := by
  induction blocks generalizing h stack with
  | nil => exact ⟨h, fun _ _ => rfl, .refl h, stacked⟩
  | cons block blocks ih =>
    rw [List.cons_append, List.nodup_cons] at distinct
    have fresh : block ∉ stack := fun listed => distinct.1 (List.mem_append_right _ listed)
    obtain ⟨h₁, frees, same, pushed⟩ :=
      kufree_pushes spaced below high stacked (members block (by simp)) fresh
    have distinct' : (blocks ++ block :: stack).Nodup :=
      List.perm_middle.nodup_iff.mpr (List.nodup_cons.mpr distinct)
    obtain ⟨k, rest, same', all⟩ := ih (same.blockEnd ▸ spaced) (by rwa [same.blockEnd, same.brk])
      (same.brk ▸ high) pushed (fun n listed => members n (by simp [listed])) distinct'
    refine ⟨k, fun rounds budget => ?_, same.trans same', ?_⟩
    · simp only [List.length_cons] at budget rest
      simp only [List.map_cons, kufreeAll, (frees rounds).reached (show stack.length < rounds by omega),
        ok_bind]
      exact rest rounds (by omega)
    · rw [List.reverse_cons, List.append_assoc]
      exact all

/-- Requests of their size take them off again, the last one first. -/
theorem kumallocAll_unstacks (spaced : Spaced sys h.blockEnd total nodes)
    (below : h.blockEnd ≤ h.brk) (high : h.brk ≤ sys.limit) (stacked : Stacked h total nodes stack)
    (sized : ∀ size ∈ sizes, sizeAlign (add size blockSize) = total)
    (enough : sizes.length ≤ stack.length) :
    ∃ k, (∀ rounds, stack.length < rounds → kumallocAll sys rounds h sizes =
        .ok ((stack.take sizes.length).map (· + 8), k)) ∧ SameBreak h k := by
  induction sizes generalizing h stack with
  | nil => exact ⟨h, fun _ _ => rfl, .refl h⟩
  | cons size sizes ih =>
    cases stack with
    | nil => cases enough
    | cons block stack =>
      obtain ⟨h₁, allocates, same, popped⟩ :=
        kumalloc_pops spaced below high stacked (sized size (by simp))
      obtain ⟨k, rest, same'⟩ := ih (same.blockEnd ▸ spaced) (by rwa [same.blockEnd, same.brk])
        (same.brk ▸ high) popped (fun n listed => sized n (by simp [listed]))
        (Nat.le_of_succ_le_succ enough)
      refine ⟨k, fun rounds budget => ?_, same.trans same'⟩
      have later := rest rounds (Nat.lt_of_succ_lt budget)
      simp only [kumallocAll, (allocates rounds).reached budget, ok_bind, later]
      rfl

/-- Blocks of a tiling are told apart by their addresses. -/
theorem Scattered.addrs_nodup (scattered : Scattered h live total freed) (packed : Packed sys h live) :
    (freed.map Block.addr).Nodup := by
  refine List.Nodup.map_on (fun b memberB c memberC same => ?_) scattered.distinct
  obtain ⟨usedB, totalB⟩ := scattered.among b memberB
  obtain ⟨usedC, totalC⟩ := scattered.among c memberC
  by_contra different
  have apart : b.extent.Apart c.extent :=
    (List.pairwise_map.mp packed.tiling.apart).forall usedB usedC different
  have equal : b.extent = c.extent := by simp only [Block.extent, same, totalB, totalC]
  have first := Extent.holds_lo (packed.tiling.positive _ (List.mem_map_of_mem usedB))
  exact apart _ first (equal ▸ first)

/-- Blocks of one size that were freed are handed out again most recently freed
first, and neither the end of the heap nor the break moves. -/
theorem recently_freed_first (packed : Packed sys h live) (scattered : Scattered h live total freed)
    (sized : ∀ size ∈ sizes, sizeAlign (add size blockSize) = total)
    (enough : sizes.length ≤ freed.length) :
    ∃ h₁ h₂, (∀ rounds, freed.length < rounds →
        kufreeAll sys rounds h (freed.map Block.ptr) = .ok h₁ ∧
        kumallocAll sys rounds h₁ sizes = .ok ((freed.reverse.take sizes.length).map Block.ptr, h₂)) ∧
      SameBreak h h₁ ∧ SameBreak h h₂ := by
  have spaced := scattered.spaced packed
  have stacked : Stacked h total (freed.map Block.addr) [] := by
    refine ⟨chain_nil.mpr packed.empty, by simp, fun n listed => ?_⟩
    obtain ⟨b, member, rfl⟩ := List.mem_map.mp listed
    obtain ⟨used, size⟩ := scattered.among b member
    exact (packed.headers b used).trans size
  have distinct := scattered.addrs_nodup packed
  obtain ⟨h₁, frees, same, full⟩ := kufreeAll_stacks spaced packed.below packed.high stacked
    (fun _ => id) (by rwa [List.append_nil])
  rw [List.append_nil] at full
  obtain ⟨h₂, allocates, same'⟩ := kumallocAll_unstacks (same.blockEnd ▸ spaced)
    (by rw [same.blockEnd, same.brk]; exact packed.below) (same.brk ▸ packed.high) full sized
    (by simpa using enough)
  refine ⟨h₁, h₂, fun rounds budget => ⟨?_, ?_⟩, same, same.trans same'⟩
  · have ran := frees rounds (by simpa using budget)
    rwa [List.map_map] at ran
  · have ran := allocates rounds (by simpa using budget)
    rwa [← List.map_reverse, ← List.map_take, List.map_map] at ran

/-- The second and the fourth of five blocks of sixteen bytes, too small for `prev`. -/
theorem recently_freed_first_small : ∃ h h₁ h₂ : Heap, (∀ rounds, 2 < rounds →
      kufreeAll pagedSystem rounds h [65560, 65592] = .ok h₁ ∧
      kumallocAll pagedSystem rounds h₁ [8, 8] = .ok ([65592, 65560], h₂)) ∧
    SameBreak h h₁ ∧ SameBreak h h₂ := by
  let second : Block := ⟨65552, 16, 8⟩
  let fourth : Block := ⟨65584, 16, 8⟩
  have ends : (playScript pagedSystem Call.checkClean 64 freshState
      [.kumalloc 8, .kumalloc 8, .kumalloc 8, .kumalloc 8, .kumalloc 8]).any (fun s =>
        s.heap.head = 0 ∧ s.heap.blockEnd = 65616 ∧ second ∈ s.live ∧ fourth ∈ s.live) = true := by
    decide +kernel
  obtain ⟨s, run, shape⟩ := clean_of_script ends
  obtain ⟨empty, stop, usedS, usedF⟩ := of_decide_eq_true shape
  obtain ⟨free, tidy⟩ := clean_run_tidy run
  obtain rfl : free = [] := chain_unique tidy.chain (chain_nil.mpr empty)
  have tiling := tidy.space.tiling
  rw [List.map_nil, List.append_nil, Heap.top, if_neg (by omega)] at tiling
  have bounds := tidy.block_bounds usedS
  have packed : Packed pagedSystem s.heap s.live :=
    ⟨empty, tiling, tidy.headers, fun b used => (tidy.block_bounds used).2.2.2.2.2, bounds.2.2.1,
      tidy.ledger.high⟩
  have scattered : Scattered s.heap s.live 16 [second, fourth] := by
    refine ⟨?_, by decide, ?_, by decide⟩
    · simp [usedS, usedF, second, fourth]
    · simp [stop, second, fourth]
  have sized : ∀ size ∈ [8, 8], sizeAlign (add size blockSize) = 16 := by decide
  obtain ⟨h₁, h₂, returns, same⟩ := recently_freed_first packed scattered sized (by decide)
  exact ⟨s.heap, h₁, h₂, returns, same⟩

end

end Comp304.Alloc
