import Comp304.Alloc.Contract

/-! The order of two frees. Which merges run, and in which direction, depends on
the order; but when both orders are clean, the heap that is left is in order
with the same live blocks, and those determine what is free and where the heap
ends. -/
namespace Comp304.Alloc
open Library.Budget Library.Lp64 Library.Extents Library.LinkedChain Heap

/-- The links that the trim reads of the free block before the freed one are still
mapped then, after the break was lowered past them: its `next`, and its `prev` unless it
is the head. -/
def TrimReads (sys : System) (h : Heap) (nodes : List Nat) (b : Block) : Prop :=
  h.blockEnd = b.addr + b.total → ∀ left ∈ h.leftOf nodes b.addr,
    ∀ i < (if left = h.head then 8 else 16),
      sys.mapped (h.brk - (b.total + h.sizeAt left)) (left + 8 + i) = true

instance (sys : System) (h : Heap) (nodes : List Nat) (b : Block) :
    Decidable (TrimReads sys h nodes b) :=
  inferInstanceAs (Decidable (_ → ∀ left ∈ h.leftOf nodes b.addr,
    ∀ i < (if left = h.head then 8 else 16), _))

/-- Freeing this block is a clean call, and a trim can read what it trims. -/
def MayFree (sys : System) (s : State) (b : Block) : Prop :=
  (Call.kufree b.ptr).Clean s ∧ ∀ nodes, s.heap.FreeList nodes → TrimReads sys s.heap nodes b

/-- The second block may be freed after the first. -/
def MayFreeBoth (sys : System) (s : State) (first second : Block) : Prop :=
  MayFree sys s first ∧ ∀ rounds h, kufree sys rounds s.heap first.ptr = .ok h →
    MayFree sys ⟨h, s.live.filter fun b => b.ptr ≠ first.ptr⟩ second

/-- Free two pointers, one after the other. -/
def kufreeBoth (sys : System) (rounds : Nat) (h : Heap) (first second : Nat) :
    Except Fault Heap := do
  let h ← kufree sys rounds h first
  kufree sys rounds h second

/-- The extent of a listed block. -/
def Heap.FreeExtent (h : Heap) (e : Extent) : Prop := ∃ n, h.OnFreeList n ∧ h.extentAt n = e

section
variable {sys : System} {s : State} {h g k : Heap} {live : List Block} {free : List Nat}
  {b c : Block}

/-- What a willing system does with a request to lower the break. -/
theorem lowerEnd_granted (willing : ∀ n, sys.granted n = true) (node : Nat)
    (small : size < 2 ^ 63) (room : sys.base + size ≤ h.brk) (high : h.brk ≤ sys.limit) :
    lowerEnd sys h node size =
      { h with blockEnd := node, brk := h.brk - size, sbrkCalls := h.sbrkCalls + 1 } := by
  rw [lowerEnd, toIntptr_neg small, sbrk, if_pos ⟨willing _, by simp only; omega, by simp only; omega⟩]
  have lowered : ((h.brk : Int) + -(size : Int)).toNat = h.brk - size := by omega
  simp only [lowered]

/-- A trim whose links stay mapped returns. -/
theorem trimPlan_returns (tidy : Tidy sys h (b :: live) (front ++ t :: back))
    (last : h.blockEnd = b.addr + b.total)
    (linked : h.LinkedBack (front ++ t :: back) t) (lowered : Lowered sys h g b.addr)
    (ends : t + h.word t = b.addr) (willing : ∀ n, sys.granted n = true)
    (mapped : ∀ i < (if t = h.head then 8 else 16),
      sys.mapped (g.brk - h.word t) (t + 8 + i) = true) :
    ∃ k, trimPlan sys g t (h.word t) = .ok k ∧ k.sbrkFailures = g.sbrkFailures ∧
      k.availableMemory = g.availableMemory := by
  have bounds := tidy.node_bounds (n := t) (by simp)
  have limit := sys.limit_lt
  have low := lowered.low
  have high := lowered.high
  have small : h.word t < 2 ^ 63 := by omega
  have room : sys.base + h.word t ≤ g.brk := by omega
  have given := lowerEnd_granted willing t small room high
  generalize lower : lowerEnd sys g t (h.word t) = l at given
  have word : ∀ a, l.word a = h.word a := by
    intro a
    rw [given]
    exact lowered.word a
  have nextRead : l.accessible sys (t + 8) 8 = true := by
    refine accessible_iff.mpr fun i inside => ?_
    rw [given]
    exact mapped i (by split <;> omega)
  have head : l.head = h.head := by rw [given]; exact lowered.head
  have counts : l.sbrkFailures = g.sbrkFailures ∧ l.availableMemory = g.availableMemory := by
    rw [given]
    exact ⟨rfl, rfl⟩
  have brk : t ≤ l.brk ∧ l.brk ≤ sys.limit := by
    rw [given]
    simp only
    omega
  simp only [trimPlan, giveBack, lower]
  cases List.eq_nil_or_concat' front with
  | inl empty =>
    subst empty
    have first : t = l.head := by
      rw [head]
      exact (show Chain 0 h.nextAt h.head (t :: back) from tidy.chain).head_eq.symm
    refine ⟨l.setHead (l.word (t + 8)), ?_, by rwa [setHead_sbrkFailures, setHead_availableMemory]⟩
    have nextRead' : (l.setHead (l.word (t + 8))).accessible sys (t + 8) 8 = true := by
      rw [setHead_accessible]
      exact nextRead
    simp only [← first, if_true, getNext, load_ok nextRead, ok_bind, load_ok nextRead']
  | inr split =>
    obtain ⟨front, p, rfl⟩ := split
    have shape : (front ++ [p]) ++ t :: back = front ++ p :: t :: back := by simp
    have listed : p ∈ (front ++ [p]) ++ t :: back := by simp
    have boundsP := tidy.node_bounds listed
    have other : p ∈ (front ++ [p]) ++ back := by simp
    have apart := tidy.others_apart other
    have below := below_last tidy last listed
    rw [shape] at tidy linked
    have notHead : t ≠ l.head := by
      rw [head]
      exact Ne.symm tidy.chain.start_ne
    have prevRead : l.accessible sys (t + 16) 8 = true := by
      refine accessible_iff.mpr fun i inside => ?_
      rw [given]
      have here := mapped (8 + i) (by rw [← head, if_neg notHead]; omega)
      rwa [show t + 8 + (8 + i) = t + 16 + i by omega] at here
    have prev : l.word (t + 16) = p :=
      (word _).trans (linked p (by simp) (follows_iff.mpr ⟨front, back, rfl⟩))
    have linkWrite : l.accessible sys (p + 8) 8 = true :=
      accessible_inside (by omega) (by omega) brk.2
    have nextRead' : (l.put (p + 8) (l.word (t + 8))).accessible sys (t + 8) 8 = true := by
      rw [put_accessible]
      exact nextRead
    refine ⟨l.put (p + 8) (l.word (t + 8)), ?_, by rwa [put_sbrkFailures, put_availableMemory]⟩
    simp only [if_neg notHead, getNext, getPrev, setNext, load_ok nextRead, load_ok prevRead, prev,
      store_ok linkWrite, ok_bind, load_ok nextRead']

/-- A clean `kufree` that can read what it trims returns. -/
theorem kufree_returns (tidy : Tidy sys h live free) (member : b ∈ live)
    (clean : FreesCleanly h free b.addr b.total) (willing : ∀ n, sys.granted n = true)
    (reads : TrimReads sys h free b) :
    ∃ k, (∀ rounds, Settles .spent free.length rounds (kufree sys rounds h b.ptr) (.ok k)) ∧
      k.sbrkFailures = h.sbrkFailures ∧ k.availableMemory = h.availableMemory := by
  have shifted := tidy.perm (tidy.live_perm member)
  have bounds := tidy.block_bounds member
  have high := tidy.ledger.high
  have limit := sys.limit_lt
  suffices plan : ∃ k, freePlan sys h free b.addr b.total = .ok k ∧
      k.sbrkFailures = h.sbrkFailures ∧ k.availableMemory = h.availableMemory by
    obtain ⟨k, ran, counts⟩ := plan
    exact ⟨k, fun rounds => (kufree_settles shifted clean.last).trans (.of_eq ran), counts⟩
  by_cases last : h.blockEnd = b.addr + b.total
  · have lowered := freed_lowered shifted last
    have small : b.total < 2 ^ 63 := by omega
    have room : sys.base + b.total ≤ h.brk := by omega
    have given := lowerEnd_granted willing b.addr small room high
    simp only [freePlan, if_pos last]
    generalize lowerEnd sys h b.addr b.total = g at lowered given ⊢
    have counts : g.sbrkFailures = h.sbrkFailures ∧ g.availableMemory = h.availableMemory := by
      rw [given]
      exact ⟨rfl, rfl⟩
    cases left : h.leftOf free b.addr with
    | none => exact ⟨g, rfl, counts⟩
    | some t =>
      obtain ⟨listed, ends⟩ := leftOf_some left
      have linked := clean.last last t left
      have mapped : ∀ i < (if t = h.head then 8 else 16),
          sys.mapped (g.brk - h.word t) (t + 8 + i) = true := by
        intro i inside
        have here := reads last t left i inside
        rw [given, Nat.sub_sub]
        exact here
      obtain ⟨front, back, rfl⟩ := List.append_of_mem listed
      obtain ⟨k, ran, failures, available⟩ :=
        trimPlan_returns shifted last linked lowered ends willing mapped
      exact ⟨k, ran, failures.trans counts.1, available.trans counts.2⟩
  · obtain ⟨k, _, ran, same, -⟩ := mergePlan_tidy shifted last clean
    refine ⟨k, ?_, same.sbrkFailures, same.availableMemory⟩
    simp only [freePlan, if_neg last, ran]

/-- Two clean frees return, and leave the heap in order. -/
theorem kufreeBoth_returns (tidy : Tidy sys s.heap s.live free) (member : b ∈ s.live)
    (member' : c ∈ s.live) (different : c.ptr ≠ b.ptr) (willing : ∀ n, sys.granted n = true)
    (may : MayFreeBoth sys s b c) :
    ∃ rounds k free', kufreeBoth sys rounds s.heap b.ptr c.ptr = .ok k ∧
      Tidy sys k ((s.live.filter fun d => d.ptr ≠ b.ptr).filter fun d => d.ptr ≠ c.ptr) free' ∧
      k.blockEnd ≠ 0 ∧ k.availableMemory = s.heap.availableMemory := by
  have used : s.heap.blockEnd ≠ 0 := by
    have bounds := tidy.block_bounds member
    omega
  have clean := may.1.1 free tidy.chain b member rfl
  obtain ⟨h, ran, quiet, available⟩ :=
    kufree_returns tidy member clean willing (may.1.2 free tidy.chain)
  have first := (ran (free.length + 1)).reached (by omega)
  obtain ⟨free', tidy', -⟩ := kufree_tidy tidy member clean first quiet
  have listed : c ∈ s.live.filter fun d => d.ptr ≠ b.ptr :=
    List.mem_filter.mpr ⟨member', decide_eq_true different⟩
  have may' := may.2 _ h first
  have clean' := may'.1 free' tidy'.chain c listed rfl
  obtain ⟨k, ran', quiet', available'⟩ :=
    kufree_returns tidy' listed clean' willing (may'.2 free' tidy'.chain)
  have second := (ran' (free'.length + 1)).reached (by omega)
  obtain ⟨free'', tidy'', -⟩ := kufree_tidy tidy' listed clean' second quiet'
  obtain ⟨ledger, used'⟩ := (kufree_keeps first).2 quiet tidy.ledger used
  obtain ⟨-, used''⟩ := (kufree_keeps second).2 quiet' ledger used'
  refine ⟨free.length + free'.length + 1, k, free'', ?_, tidy'', used'', available'.trans available⟩
  simp only [kufreeBoth, (ran (free.length + free'.length + 1)).reached (by omega), ok_bind]
  exact (ran' _).reached (by omega)

theorem freeExtent_iff (list : h.FreeList free) (e : Extent) :
    h.FreeExtent e ↔ e ∈ free.map h.extentAt := by
  simp only [FreeExtent, List.mem_map, OnFreeList, Chain.reach_iff list]

/-- Two heaps in order with the same live blocks have the same free extents and
the same end. -/
theorem Tidy.same_free (first : Tidy sys h live free) (second : Tidy sys k live' free')
    (same : ∀ b, b ∈ live ↔ b ∈ live') :
    (∀ e, h.FreeExtent e ↔ k.FreeExtent e) ∧ h.top sys = k.top sys := by
  have inUse : ∀ e, e ∈ live.map Block.extent ↔ e ∈ live'.map Block.extent := by
    intro e
    simp only [List.mem_map, same]
  refine ⟨fun e => ?_, first.space.top_unique second.space inUse⟩
  rw [freeExtent_iff first.chain, freeExtent_iff second.chain]
  exact first.space.free_unique second.space inUse

/-- If they also have the same bytes left over, they have the same break. -/
theorem tidy_unique (first : Tidy sys h live free) (second : Tidy sys k live' free')
    (same : ∀ b, b ∈ live ↔ b ∈ live') (used : h.blockEnd ≠ 0) (used' : k.blockEnd ≠ 0)
    (available : h.availableMemory = k.availableMemory) :
    (∀ e, h.FreeExtent e ↔ k.FreeExtent e) ∧ h.blockEnd = k.blockEnd ∧ h.brk = k.brk := by
  obtain ⟨extents, top⟩ := first.same_free second same
  simp only [Heap.top, if_neg used, if_neg used'] at top
  have balance := first.ledger.balance used
  have balance' := second.ledger.balance used'
  exact ⟨extents, top, by omega⟩

/-- Freeing two blocks in either order ends with the same free extents, the same
end of the heap and the same break, when both orders are clean. -/
theorem clean_frees_commute (willing : ∀ n, sys.granted n = true) (run : CleanRun sys s)
    (member : b ∈ s.live) (member' : c ∈ s.live) (different : b.ptr ≠ c.ptr)
    (may : MayFreeBoth sys s b c) (may' : MayFreeBoth sys s c b) :
    ∃ rounds rounds' h k, kufreeBoth sys rounds s.heap b.ptr c.ptr = .ok h ∧
      kufreeBoth sys rounds' s.heap c.ptr b.ptr = .ok k ∧
      (∀ e, h.FreeExtent e ↔ k.FreeExtent e) ∧ h.blockEnd = k.blockEnd ∧ h.brk = k.brk := by
  obtain ⟨free, tidy⟩ := clean_run_tidy run
  obtain ⟨rounds, h, _, ran, tidyH, usedH, availableH⟩ :=
    kufreeBoth_returns tidy member member' (Ne.symm different) willing may
  obtain ⟨rounds', k, _, ran', tidyK, usedK, availableK⟩ :=
    kufreeBoth_returns tidy member' member different willing may'
  refine ⟨rounds, rounds', h, k, ran, ran', tidy_unique tidyH tidyK (fun d => ?_) usedH usedK
    (availableH.trans availableK.symm)⟩
  simp only [List.mem_filter, decide_eq_true_eq]
  tauto

/-! ### Orders by script -/

/-- Whether the block may be freed, for scripts. -/
def checkMayFree (sys : System) (s : State) (b : Block) : Bool :=
  (Call.kufree b.ptr).checkClean s &&
    (s.heap.listed 64 s.heap.head).all fun nodes => TrimReads sys s.heap nodes b

/-- Whether the second block may be freed after the first, for scripts. -/
def checkMayFreeBoth (sys : System) (s : State) (first second : Block) : Bool :=
  checkMayFree sys s first &&
    (kufree sys 64 s.heap first.ptr).toOption.any fun h =>
      checkMayFree sys ⟨h, s.live.filter fun b => b.ptr ≠ first.ptr⟩ second

theorem checkMayFree_sound (passed : checkMayFree sys s b = true) : MayFree sys s b := by
  simp only [checkMayFree, Bool.and_eq_true, Option.all_eq_true, decide_eq_true_eq] at passed
  obtain ⟨clean, reads⟩ := passed
  refine ⟨(Call.checkClean_sound s _ clean).2, fun nodes list => ?_⟩
  simp only [Call.checkClean] at clean
  split at clean
  · cases clean
  · next nodes' walked =>
    exact chain_unique (listed_chain walked) list ▸ reads nodes' walked

theorem checkMayFreeBoth_sound (run : CleanRun sys s) (member : b ∈ s.live)
    (passed : checkMayFreeBoth sys s b c = true) : MayFreeBoth sys s b c := by
  obtain ⟨free, tidy⟩ := clean_run_tidy run
  simp only [checkMayFreeBoth, Bool.and_eq_true, Option.any_eq_true, toOption_eq_some] at passed
  obtain ⟨first, h, ran, second⟩ := passed
  refine ⟨checkMayFree_sound first, fun rounds k ran' => ?_⟩
  -- the budget makes no difference: both runs are the one path the block takes
  have clean := (checkMayFree_sound first).1 free tidy.chain b member rfl
  have shifted := tidy.perm (tidy.live_perm member)
  have one := (kufree_settles shifted clean.last).returned ran
  have other := (kufree_settles shifted clean.last).returned ran'
  cases one.symm.trans other
  exact checkMayFree_sound second

/-- The last block, with a free one before it, and the first one. -/
theorem clean_frees_commute_reached : ∃ s, CleanRun pagedSystem s ∧
    ∃ rounds rounds' h k, kufreeBoth pagedSystem rounds s.heap 65544 65864 = .ok h ∧
      kufreeBoth pagedSystem rounds' s.heap 65864 65544 = .ok k ∧
      (∀ e, h.FreeExtent e ↔ k.FreeExtent e) ∧ h.blockEnd = k.blockEnd ∧ h.brk = k.brk := by
  have ends : (playScript pagedSystem Call.checkClean 64 freshState
      [.kumalloc 56, .kumalloc 56, .kumalloc 56, .kumalloc 56, .kumalloc 56, .kumalloc 56,
        .kufree 65608, .kufree 65736, .kufree 65672, .kumalloc 8, .kucalloc 2 4,
        .kufree 65800]).any (fun s => ⟨65536, 64, 56⟩ ∈ s.live ∧ ⟨65856, 64, 56⟩ ∈ s.live ∧
          checkMayFreeBoth pagedSystem s ⟨65536, 64, 56⟩ ⟨65856, 64, 56⟩ ∧
          checkMayFreeBoth pagedSystem s ⟨65856, 64, 56⟩ ⟨65536, 64, 56⟩) = true := by
    decide +kernel
  obtain ⟨s, run, shape⟩ := clean_of_script ends
  obtain ⟨member, member', may, may'⟩ := of_decide_eq_true shape
  have different : (⟨65536, 64, 56⟩ : Block).ptr ≠ (⟨65856, 64, 56⟩ : Block).ptr := by
    simp [Block.ptr]
  have willing : ∀ n, pagedSystem.granted n = true := fun _ => rfl
  have commute := clean_frees_commute willing run member member' different
    (checkMayFreeBoth_sound run member may) (checkMayFreeBoth_sound run member' may')
  exact ⟨s, run, commute⟩

/-- The left neighbour of a pair freed last finds a block on its right with more
behind it; freed first, it is merged into by its right neighbour. -/
theorem valid_run_order_matters : ∃ s, ValidRun pagedSystem s ∧
    ⟨65536, 64, 56⟩ ∈ s.live ∧ ⟨65600, 64, 56⟩ ∈ s.live ∧
    ∃ h k, kufreeBoth pagedSystem 64 s.heap 65544 65608 = .ok h ∧
      kufreeBoth pagedSystem 64 s.heap 65608 65544 = .ok k ∧
      ¬ ∀ e, h.FreeExtent e ↔ k.FreeExtent e := by
  have ends : (playScript pagedSystem (fun _ call => call.Plain) 64 freshState
      [.kumalloc 56, .kumalloc 56, .kumalloc 56, .kumalloc 56, .kumalloc 56, .kumalloc 56,
        .kumalloc 56, .kufree 65864, .kufree 65672]).any (fun s =>
      ⟨65536, 64, 56⟩ ∈ s.live ∧ ⟨65600, 64, 56⟩ ∈ s.live ∧
        ((kufreeBoth pagedSystem 64 s.heap 65544 65608).toOption.any fun h =>
          h.listed 64 h.head = some [65536]) ∧
        (kufreeBoth pagedSystem 64 s.heap 65608 65544).toOption.any fun k =>
          k.listed 64 k.head = some [65536, 65856]) = true := by
    decide +kernel
  obtain ⟨s, run, shape⟩ := valid_of_script ends
  obtain ⟨member, member', one, other⟩ := of_decide_eq_true shape
  simp only [Option.any_eq_true, toOption_eq_some, decide_eq_true_eq] at one other
  obtain ⟨h, ran, walked⟩ := one
  obtain ⟨k, ran', walked'⟩ := other
  refine ⟨s, run, member, member', h, k, ran, ran', fun same => ?_⟩
  have on : k.OnFreeList 65856 := (listed_chain walked').reach_iff.mpr (by simp)
  obtain ⟨n, on', extent⟩ := (same (k.extentAt 65856)).mpr ⟨65856, on, rfl⟩
  have only := (listed_chain walked).reach_iff.mp on'
  cases List.mem_singleton.mp only
  cases congrArg Extent.lo extent

end

end Comp304.Alloc
