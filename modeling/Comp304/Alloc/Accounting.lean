import Comp304.Library.Budget
import Comp304.Alloc.Runs

/-! The break is always `block_end` plus `available_memory`. Nothing else about
the heap is needed for it: the memory may hold anything, free list and block
headers included, because all three variables move together whatever sizes the
code reads. -/
namespace Comp304.Alloc
open Library.Budget Library.ByteMemory Library.Lp64

/-- The break lies where it may lie, and is accounted for once there is a block
to account from. -/
structure Ledger (sys : System) (h : Heap) : Prop where
  low : sys.base ≤ h.brk
  high : h.brk ≤ sys.limit
  unused : h.blockEnd = 0 → h.availableMemory = 0
  balance : h.blockEnd ≠ 0 → h.blockEnd + h.availableMemory = h.brk

/-- Everything but the memory and the list head is as before. -/
structure SameBreak (h h' : Heap) : Prop where
  blockEnd : h'.blockEnd = h.blockEnd
  availableMemory : h'.availableMemory = h.availableMemory
  brk : h'.brk = h.brk
  sbrkFailures : h'.sbrkFailures = h.sbrkFailures

/-- What a part of a call may do to a heap that has blocks: if `sbrk` never
refused, the books still balance. -/
def Keeps (sys : System) (h h' : Heap) : Prop :=
  h.sbrkFailures ≤ h'.sbrkFailures ∧
    (h'.sbrkFailures = h.sbrkFailures → Ledger sys h → h.blockEnd ≠ 0 →
      Ledger sys h' ∧ h'.blockEnd ≠ 0)

section
variable {sys : System} {h h' h'' : Heap}

theorem SameBreak.refl (h : Heap) : SameBreak h h := ⟨rfl, rfl, rfl, rfl⟩

theorem SameBreak.trans (left : SameBreak h h') (right : SameBreak h' h'') : SameBreak h h'' :=
  ⟨right.blockEnd.trans left.blockEnd, right.availableMemory.trans left.availableMemory,
    right.brk.trans left.brk, right.sbrkFailures.trans left.sbrkFailures⟩

theorem SameBreak.ledger (same : SameBreak h h') (ledger : Ledger sys h) : Ledger sys h' where
  low := same.brk ▸ ledger.low
  high := same.brk ▸ ledger.high
  unused := by
    rw [same.blockEnd, same.availableMemory]
    exact ledger.unused
  balance := by
    rw [same.blockEnd, same.availableMemory, same.brk]
    exact ledger.balance

theorem SameBreak.keeps (same : SameBreak h h') : Keeps sys h h' :=
  ⟨Nat.le_of_eq same.sbrkFailures.symm,
    fun _ ledger used => ⟨same.ledger ledger, same.blockEnd ▸ used⟩⟩

theorem Keeps.trans (left : Keeps sys h h') (right : Keeps sys h' h'') : Keeps sys h h'' := by
  refine ⟨Nat.le_trans left.1 right.1, fun quiet ledger used => ?_⟩
  have first : h'.sbrkFailures = h.sbrkFailures :=
    Nat.le_antisymm (quiet ▸ right.1) left.1
  obtain ⟨ledger', used'⟩ := left.2 first ledger used
  exact right.2 (quiet.trans first.symm) ledger' used'

/-! ### Parts that never touch the break -/

theorem mem_sameBreak (h : Heap) (mem : Memory) : SameBreak h { h with mem := mem } :=
  ⟨rfl, rfl, rfl, rfl⟩

theorem head_sameBreak (h : Heap) (node : Nat) : SameBreak h { h with head := node } :=
  ⟨rfl, rfl, rfl, rfl⟩

theorem store_sameBreak (ran : h.store sys address value = .ok h') : SameBreak h h' := by
  unfold Heap.store at ran
  split at ran
  · cases ran
    exact mem_sameBreak h _
  · cases ran

theorem unlinkNext_sameBreak (ran : unlinkNext sys subseq sizeDiff h temp = .ok h') :
    SameBreak h h' := by
  unfold unlinkNext at ran
  split at ran <;> simp only [bind_eq_ok] at ran
  · obtain ⟨_, _, _, _, first, stored, _, _, _, _, second, stored', third, stored'', last⟩ := ran
    exact (((store_sameBreak stored).trans (store_sameBreak stored')).trans
      (store_sameBreak stored'')).trans (store_sameBreak last)
  · obtain ⟨_, _, _, _, first, stored, _, _, _, _, last⟩ := ran
    exact (store_sameBreak stored).trans (store_sameBreak last)

theorem unlinkBlock_sameBreak
    (ran : unlinkBlock sys freeBlock subseq sizeDiff h rounds temp = .ok h') : SameBreak h h' := by
  induction rounds generalizing temp with
  | zero => cases ran
  | succ rounds ih =>
    simp only [unlinkBlock] at ran
    obtain ⟨next, _, ran⟩ := bind_eq_ok.mp ran
    split at ran
    · cases ran
      exact .refl h
    · split at ran
      · exact unlinkNext_sameBreak ran
      · exact ih ran

theorem reuseHead_sameBreak (ran : reuseHead sys subseq sizeDiff h = .ok h') :
    SameBreak h h' := by
  unfold reuseHead at ran
  split at ran <;> simp only [bind_eq_ok] at ran
  · obtain ⟨_, _, first, stored, _, _, second, stored', last⟩ := ran
    cases last
    exact ((store_sameBreak stored).trans (store_sameBreak stored')).trans (head_sameBreak _ _)
  · obtain ⟨next, _, ran⟩ := ran
    split at ran
    · exact (head_sameBreak h next).trans (store_sameBreak ran)
    · cases ran
      exact head_sameBreak h next

theorem reuseBlock_sameBreak (ran : reuseBlock sys rounds h block total = .ok h') :
    SameBreak h h' := by
  simp only [reuseBlock, bind_eq_ok] at ran
  obtain ⟨first, stored, _, _, second, stored', third, stored'', ran⟩ := ran
  have before := ((store_sameBreak stored).trans (store_sameBreak stored')).trans
    (store_sameBreak stored'')
  split at ran
  · exact before.trans (reuseHead_sameBreak ran)
  · exact before.trans (unlinkBlock_sameBreak ran)

theorem memsetZero_mem (ran : memsetZero sys h start width = .ok h') :
    ∃ mem, h' = { h with mem := mem } := by
  unfold memsetZero at ran
  split at ran
  · cases ran
    exact ⟨_, rfl⟩
  · cases ran

theorem memcpy_mem (ran : memcpy sys h target source width = .ok h') :
    ∃ mem, h' = { h with mem := mem } := by
  unfold memcpy at ran
  split at ran
  · cases ran
    exact ⟨_, rfl⟩
  · cases ran

theorem takePlace_sameBreak (ran : takePlace sys h keep drop = .ok h') : SameBreak h h' := by
  unfold takePlace at ran
  split at ran
  · obtain ⟨_, _, stored⟩ := bind_eq_ok.mp ran
    exact store_sameBreak stored
  · cases ran
    exact head_sameBreak h keep

theorem absorb_sameBreak (ran : absorb sys h keep drop = .ok h') : SameBreak h h' := by
  simp only [absorb, bind_eq_ok] at ran
  obtain ⟨first, one, second, two, third, three, four⟩ := ran
  have next : SameBreak h first := by
    simp only [takeNext, bind_eq_ok] at one
    obtain ⟨_, _, one⟩ := one
    split at one
    · exact store_sameBreak one
    · cases one
      exact .refl h
  have prev : SameBreak first second := by
    simp only [takePrev, bind_eq_ok] at two
    obtain ⟨_, _, two⟩ := two
    split at two
    · exact store_sameBreak two
    · cases two
      exact .refl _
  have cut : SameBreak third h' := by
    simp only [cutSelfLoop, bind_eq_ok] at four
    obtain ⟨_, _, four⟩ := four
    split at four
    · exact store_sameBreak four
    · cases four
      exact .refl _
  exact ((next.trans prev).trans (takePlace_sameBreak three)).trans cut

theorem mergeThree_sameBreak (ran : mergeThree sys h keep freeBlock drop = .ok h') :
    SameBreak h h' := by
  simp only [mergeThree, bind_eq_ok] at ran
  obtain ⟨_, _, _, _, _, _, sized, stored, rest⟩ := ran
  exact (store_sameBreak stored).trans (absorb_sameBreak rest)

theorem mergeTwo_sameBreak (ran : mergeTwo sys h freeBlock temp = .ok h') : SameBreak h h' := by
  simp only [mergeTwo, bind_eq_ok] at ran
  obtain ⟨_, _, _, _, stored⟩ := ran
  exact store_sameBreak stored

theorem mergeLeft_sameBreak
    (ran : mergeLeft sys h freeBlock temp end2 rounds temp2 = .ok h') : SameBreak h h' := by
  induction rounds generalizing temp2 with
  | zero => cases ran
  | succ rounds ih =>
    simp only [mergeLeft] at ran
    split at ran
    · exact mergeThree_sameBreak ran
    · obtain ⟨next, _, ran⟩ := bind_eq_ok.mp ran
      split at ran
      · exact mergeTwo_sameBreak ran
      · exact ih ran

theorem replaceRight_sameBreak (ran : replaceRight sys h freeBlock temp = .ok h') :
    SameBreak h h' := by
  simp only [replaceRight, bind_eq_ok] at ran
  obtain ⟨_, _, _, _, first, one, _, _, second, two, _, _, third, three, four⟩ := ran
  exact (((store_sameBreak one).trans (store_sameBreak two)).trans (store_sameBreak three)).trans
    (takePlace_sameBreak four)

theorem mergeRight_sameBreak
    (ran : mergeRight sys h freeBlock temp rounds temp2 = .ok h') : SameBreak h h' := by
  induction rounds generalizing temp2 with
  | zero => cases ran
  | succ rounds ih =>
    simp only [mergeRight] at ran
    split at ran
    · exact replaceRight_sameBreak ran
    · obtain ⟨size2, _, ran⟩ := bind_eq_ok.mp ran
      split at ran
      · exact mergeThree_sameBreak ran
      · obtain ⟨next, _, ran⟩ := bind_eq_ok.mp ran
        exact ih ran

theorem mergeLoop_sameBreak
    (ran : mergeLoop sys scans h freeBlock rounds temp = .ok h') : SameBreak h h' := by
  induction rounds generalizing temp with
  | zero => cases ran
  | succ rounds ih =>
    simp only [mergeLoop] at ran
    split at ran
    · simp only [insertBlock, bind_eq_ok] at ran
      obtain ⟨first, one, second, two, last⟩ := ran
      cases last
      exact ((store_sameBreak one).trans (store_sameBreak two)).trans (head_sameBreak _ _)
    · simp only [bind_eq_ok] at ran
      obtain ⟨_, _, _, _, ran⟩ := ran
      split at ran
      · exact mergeLeft_sameBreak ran
      · split at ran
        · exact mergeRight_sameBreak ran
        · obtain ⟨next, _, ran⟩ := bind_eq_ok.mp ran
          exact ih ran

theorem addFree_sameBreak (ran : addFree sys rounds h block = .ok h') : SameBreak h h' := by
  unfold addFree at ran
  split at ran
  · simp only [bind_eq_ok] at ran
    obtain ⟨first, stored, last⟩ := ran
    cases last
    exact (store_sameBreak stored).trans (head_sameBreak _ _)
  · exact mergeLoop_sameBreak ran

/-! ### Parts that move the break -/

theorem sbrk_failures (sys : System) (h : Heap) (increment : Int) :
    h.sbrkFailures ≤ (sbrk sys h increment).2.sbrkFailures := by
  unfold sbrk
  split
  · exact Nat.le_refl _
  · exact Nat.le_succ _

/-- What a granted `sbrk` returns and leaves behind. -/
theorem sbrk_granted (quiet : (sbrk sys h increment).2.sbrkFailures = h.sbrkFailures) :
    sbrk sys h increment =
      (h.brk, { h with brk := (h.brk + increment).toNat, sbrkCalls := h.sbrkCalls + 1 }) ∧
    (sys.base : Int) ≤ h.brk + increment ∧ (h.brk : Int) + increment ≤ sys.limit := by
  unfold sbrk at quiet ⊢
  split
  · next allowed => exact ⟨rfl, allowed.2⟩
  · next refused =>
    rw [if_neg refused] at quiet
    exact absurd quiet (Nat.succ_ne_self _)

theorem accessible_bounds (access : h.accessible sys address 8 = true) :
    4096 ≤ address ∧ address < 2 ^ 63 := by
  simp only [Heap.accessible, List.all_eq_true, List.mem_range] at access
  simpa using sys.user_mapped _ _ (access 0 (by omega))

/-- A size that was read came from a mapped address and fits in 64 bits. -/
theorem getSize_bounds (ran : h.getSize sys node = .ok size) :
    4096 ≤ node ∧ node < 2 ^ 63 ∧ size < 2 ^ 64 := by
  simp only [Heap.getSize, Heap.load] at ran
  split at ran
  · next access =>
    obtain rfl := Except.ok.inj ran
    have bounds := accessible_bounds access
    exact ⟨bounds.1, bounds.2, loadBytes_lt h.mem node 8⟩
  · cases ran

private theorem lowered_break {blockEnd available brk node size : Nat} {change : Int}
    (balance : blockEnd + available = brk) (ends : blockEnd = (node + size) % 2 ^ 64)
    (low : 4096 ≤ node) (high : node < 2 ^ 63) (below : brk < 2 ^ 63)
    (negated : change = -(size : Int) ∨
      (2 ^ 63 ≤ size ∧ ∃ m : Nat, m + size = 2 ^ 64 ∧ change = m))
    (bottom : 4096 ≤ (brk : Int) + change) (top : (brk : Int) + change < (2 ^ 63 : Nat)) :
    ((brk : Int) + change).toNat = node + available := by
  rcases negated with small | ⟨large, m, complement, large'⟩ <;> omega

/-- Lowering `block_end` to a node that reaches it and the break by the node's
size keeps the books, whatever that size is. -/
theorem lower_keeps (ends : h.blockEnd = add node size) (low : 4096 ≤ node) (high : node < 2 ^ 63)
    (small : size < 2 ^ 64) :
    Keeps sys h (lowerEnd sys h node size) := by
  refine ⟨sbrk_failures sys { h with blockEnd := node } _, fun quiet ledger used => ?_⟩
  obtain ⟨result, bottom, top⟩ := sbrk_granted quiet
  rw [lowerEnd, result]
  have negated := toIntptr_neg_cases small
  generalize toIntptr (sub 0 size) = change at bottom top negated ⊢
  simp only at bottom top
  have limit := sys.limit_lt
  have base := sys.base_above
  have before := ledger.high
  have lowered := lowered_break (ledger.balance used) ends low high (by omega) negated
    (by omega) (by omega)
  refine ⟨⟨?_, ?_, ?_, ?_⟩, ?_⟩ <;> simp only [lowered]
  · omega
  · omega
  · omega
  · exact fun _ => trivial
  · omega

theorem freeLast_keeps (ran : h.getSize sys block = .ok size) :
    Keeps sys h (freeLast sys h block size) := by
  obtain ⟨low, high, small⟩ := getSize_bounds ran
  unfold freeLast
  split
  · next ends => exact lower_keeps ends low high small
  · exact (SameBreak.refl _).keeps

theorem trimBlock_keeps (sized : h.getSize sys temp = .ok size)
    (ran : trimBlock sys h temp size = .ok h') : Keeps sys h h' := by
  obtain ⟨low, high, small⟩ := getSize_bounds sized
  unfold trimBlock at ran
  split at ran
  · next ends =>
    refine (lower_keeps ends.symm low high small).trans (SameBreak.keeps ?_)
    simp only [giveBack] at ran
    split at ran <;> simp only [bind_eq_ok] at ran
    · obtain ⟨next, _, last⟩ := ran
      cases last
      exact head_sameBreak _ _
    · obtain ⟨prev, _, next, _, stored⟩ := ran
      exact store_sameBreak stored
  · cases ran
    exact (SameBreak.refl _).keeps

theorem trimLoop_keeps (ran : trimLoop sys rounds h temp = .ok h') : Keeps sys h h' := by
  induction rounds generalizing h temp with
  | zero => cases ran
  | succ rounds ih =>
    simp only [trimLoop] at ran
    split at ran
    · cases ran
      exact (SameBreak.refl _).keeps
    · simp only [bind_eq_ok] at ran
      obtain ⟨size, sized, trimmed, trim, next, _, rest⟩ := ran
      exact (trimBlock_keeps sized trim).trans (ih rest)

theorem kufree_keeps (ran : kufree sys rounds h ptr = .ok h') : Keeps sys h h' := by
  unfold kufree at ran
  split at ran
  · cases ran
    exact (SameBreak.refl _).keeps
  · simp only [bind_eq_ok] at ran
    obtain ⟨size, sized, trimmed, trim, ran⟩ := ran
    have before := (freeLast_keeps sized).trans (trimLoop_keeps trim)
    split at ran
    · cases ran
      exact before
    · exact before.trans (addFree_sameBreak ran).keeps

/-! ### Growth -/

theorem sizeAlign_exact (fits : n + 7 < 2 ^ 64) : sizeAlign n = (n + 7) / 8 * 8 := by
  have second : sub (add n 8) 1 = n + 7 := by
    simp only [sub, add]
    omega
  rw [sizeAlign, second, mul_of_lt (by omega)]

theorem productSize_exact (fits : nmemb * size + 7 < 2 ^ 64) :
    sizeAlign (mul nmemb size) = (nmemb * size + 7) / 8 * 8 := by
  rw [mul_of_lt (by omega), sizeAlign_exact fits]

theorem totalSize_exact (fits : size + 15 < 2 ^ 64) :
    sizeAlign (add size blockSize) = exactTotal size := by
  rw [blockSize, add_of_lt (by omega), sizeAlign_exact (by omega), exactTotal]

theorem capacity_exact (fits : (total / 8192 + 1) * 8192 < 2 ^ 63) :
    total ≤ capacity total ∧ capacity total < 2 ^ 63 ∧ toIntptr (capacity total) = capacity total := by
  have exact : capacity total = if total > 8192 then (total / 8192 + 1) * 8192 else 8192 := by
    unfold capacity
    split
    · rw [add_of_lt (by omega), mul_of_lt (by omega)]
    · rfl
  have bounds : total ≤ capacity total ∧ capacity total < 2 ^ 63 := by
    rw [exact]
    split <;> omega
  exact ⟨bounds.1, bounds.2, toIntptr_of_lt bounds.2⟩

/-- Where a growing `kumalloc` puts its block, and what it leaves behind. -/
structure Grown (sys : System) (h : Heap) (total block : Nat) (h' : Heap) : Prop where
  placed : block = if h.blockEnd = 0 then h.brk else h.blockEnd
  mem : h'.mem = h.mem
  head : h'.head = h.head
  blockEnd : h'.blockEnd = block + total
  within : block + total ≤ h'.brk
  ledger : Ledger sys h'

/-- All three growth paths place the block at `block_end`. -/
theorem growHeap_grown (fits : (total / 8192 + 1) * 8192 < 2 ^ 63) (ledger : Ledger sys h)
    (quiet : (growHeap sys h total).2.sbrkFailures = h.sbrkFailures) :
    Grown sys h total (growHeap sys h total).1 (growHeap sys h total).2 := by
  obtain ⟨fit, small, signed⟩ := capacity_exact fits
  have limit := sys.limit_lt
  have base := sys.base_above
  have high := ledger.high
  have low := ledger.low
  have room : sub (capacity total) total = capacity total - total :=
    sub_of_le fit (by omega)
  unfold growHeap at quiet ⊢
  by_cases empty : h.availableMemory = 0
  · -- nothing left over: the block starts at the old break
    simp only [if_pos empty, signed] at quiet ⊢
    obtain ⟨result, bottom, top⟩ := sbrk_granted quiet
    simp only [result, room, empty]
    generalize capacity total = asked at fit small bottom top room ⊢
    have newBreak : ((h.brk : Int) + asked).toNat = h.brk + asked := by omega
    have placed : h.brk = if h.blockEnd = 0 then h.brk else h.blockEnd := by
      split
      · rfl
      · next used => exact (empty ▸ ledger.balance used).symm
    have ended : (if h.blockEnd ≠ 0 then add h.blockEnd total else add h.brk total) =
        h.brk + total := by
      rw [← add_of_lt (a := h.brk) (b := total) (by omega)]
      split at placed
      · next unused => simp [unused]
      · next used => simp [used, placed]
    have added : add 0 (asked - total) = asked - total := by
      rw [add_of_lt (by omega)]
      omega
    refine ⟨placed, rfl, rfl, ended, ?_, ?_, ?_, ?_, ?_⟩ <;> simp only [newBreak, ended, added] <;>
      omega
  · have used : h.blockEnd ≠ 0 := fun unused => empty (ledger.unused unused)
    have balance := ledger.balance used
    have placed : h.blockEnd = if h.blockEnd = 0 then h.brk else h.blockEnd := by
      rw [if_neg used]
    simp only [if_neg empty] at quiet ⊢
    by_cases enough : total ≤ h.availableMemory
    · simp only [if_pos enough]
      have ended : add h.blockEnd total = h.blockEnd + total := add_of_lt (by omega)
      have left : sub h.availableMemory total = h.availableMemory - total :=
        sub_of_le enough (by omega)
      refine ⟨placed, rfl, rfl, ended, ?_, ?_, ?_, ?_, ?_⟩ <;> simp only [ended, left] <;> omega
    · simp only [if_neg enough, signed] at quiet ⊢
      obtain ⟨result, bottom, top⟩ := sbrk_granted quiet
      simp only [result, room]
      generalize capacity total = asked at fit small bottom top room ⊢
      have newBreak : ((h.brk : Int) + asked).toNat = h.brk + asked := by omega
      have ended : add h.blockEnd total = h.blockEnd + total := add_of_lt (by omega)
      have added : add h.availableMemory (asked - total) = h.availableMemory + (asked - total) :=
        add_of_lt (by omega)
      refine ⟨placed, rfl, rfl, ended, ?_, ?_, ?_, ?_, ?_⟩ <;>
        simp only [newBreak, ended, added] <;> omega

end

/-! ### Runs over any memory -/

/-- The pointer argument of a call is NULL or was handed out at some time; it
need not be live any more. -/
def Call.FromIssued (issued : List Nat) : Call → Prop
  | .kumalloc _ | .kucalloc _ _ => True
  | .kufree ptr | .kurealloc ptr _ => ptr = 0 ∨ ptr ∈ issued

/-- Runs of all four functions in which the memory may change in any way at any
time between calls. -/
inductive WildRun (sys : System) : Heap → List Nat → Prop where
  | start (mem : Memory) : WildRun sys (Heap.initial sys mem) []
  | scribble {h : Heap} (mem : Memory) :
      WildRun sys h issued → WildRun sys { h with mem := mem } issued
  | call {h h' : Heap} {call : Call} : WildRun sys h issued → call.FromIssued issued →
      call.NoWrap → call.exec sys rounds h = .ok (result, h') →
      h'.sbrkFailures = h.sbrkFailures → WildRun sys h' (result :: issued)

/-- The books balance, and before the first block nothing is on the free list
and nothing was handed out. -/
structure Books (sys : System) (h : Heap) (issued : List Nat) : Prop where
  ledger : Ledger sys h
  headless : h.blockEnd = 0 → h.head = 0
  issuedNull : h.blockEnd = 0 → ∀ ptr ∈ issued, ptr = 0

variable {sys : System} {h h' : Heap} {call : Call}

theorem Books.of_used (ledger : Ledger sys h) (used : h.blockEnd ≠ 0) : Books sys h issued :=
  ⟨ledger, fun unused => absurd unused used, fun unused => absurd unused used⟩

/-- A call that found blocks in use leaves the books balanced. -/
theorem Keeps.books (keeps : Keeps sys h h') (books : Books sys h issued)
    (quiet : h'.sbrkFailures = h.sbrkFailures) (used : h.blockEnd ≠ 0) : Books sys h' issued' :=
  have ⟨ledger, used'⟩ := keeps.2 quiet books.ledger used
  .of_used ledger used'

theorem findBlock_null (ran : findBlock sys h total rounds 0 = .ok block) : block = 0 := by
  cases rounds with
  | zero => cases ran
  | succ rounds =>
    simp only [findBlock, if_pos] at ran
    cases ran
    rfl

theorem kumalloc_books (fits : RequestFits size) (books : Books sys h issued)
    (ran : kumalloc sys rounds h size = .ok (result, h'))
    (quiet : h'.sbrkFailures = h.sbrkFailures) : Books sys h' (result :: issued) := by
  unfold kumalloc at ran
  split at ran
  · cases ran
    refine ⟨books.ledger, books.headless, fun unused ptr member => ?_⟩
    cases List.mem_cons.mp member with
    | inl null => exact null
    | inr old => exact books.issuedNull unused ptr old
  · rw [totalSize_exact fits.1] at ran
    obtain ⟨block, found, ran⟩ := bind_eq_ok.mp ran
    by_cases null : block = 0
    · simp only [if_pos null] at ran
      obtain ⟨final, step, last⟩ := bind_eq_ok.mp ran
      cases last
      have same := store_sameBreak step
      have grown := growHeap_grown fits.2 books.ledger (same.sbrkFailures.symm.trans quiet)
      refine .of_used (same.ledger grown.ledger) ?_
      rw [same.blockEnd, grown.blockEnd, grown.placed]
      have base := sys.base_above
      have low := books.ledger.low
      split <;> omega
    · simp only [if_neg null] at ran
      obtain ⟨final, step, last⟩ := bind_eq_ok.mp ran
      cases last
      have same := reuseBlock_sameBreak step
      refine .of_used (same.ledger books.ledger) ?_
      rw [same.blockEnd]
      intro unused
      rw [books.headless unused] at found
      exact null (findBlock_null found)

theorem Books.of_mem (books : Books sys h issued) (mem : Memory) :
    Books sys { h with mem := mem } issued :=
  ⟨(mem_sameBreak h mem).ledger books.ledger, books.headless, books.issuedNull⟩

/-- A pointer that is NULL or known adds nothing to the books. -/
theorem Books.reissue (books : Books sys h issued) (known : ptr = 0 ∨ ptr ∈ issued) :
    Books sys h (ptr :: issued) := by
  refine ⟨books.ledger, books.headless, fun unused ptr' member => ?_⟩
  cases List.mem_cons.mp member with
  | inl same => exact same ▸ known.elim id (books.issuedNull unused ptr)
  | inr old => exact books.issuedNull unused ptr' old

theorem RequestFits.le (fits : RequestFits large) (below : size ≤ large) : RequestFits size := by
  obtain ⟨align, room⟩ := fits
  have totals : exactTotal size ≤ exactTotal large := by
    unfold exactTotal
    omega
  have pages : exactTotal size / 8192 ≤ exactTotal large / 8192 := Nat.div_le_div_right totals
  refine ⟨by omega, Nat.lt_of_le_of_lt ?_ room⟩
  exact Nat.mul_le_mul_right 8192 (Nat.succ_le_succ pages)

theorem kufree_books (books : Books sys h issued) (known : ptr = 0 ∨ ptr ∈ issued)
    (ran : kufree sys rounds h ptr = .ok h') (quiet : h'.sbrkFailures = h.sbrkFailures) :
    Books sys h' (0 :: issued) := by
  by_cases used : h.blockEnd = 0
  · have null : ptr = 0 := known.elim id (books.issuedNull used ptr)
    simp only [kufree, if_pos null] at ran
    cases ran
    exact books.reissue (.inl rfl)
  · exact (kufree_keeps ran).books books quiet used

/-- Every call keeps the books. -/
theorem exec_books (books : Books sys h issued) (known : call.FromIssued issued)
    (fits : call.NoWrap) (ran : call.exec sys rounds h = .ok (result, h'))
    (quiet : h'.sbrkFailures = h.sbrkFailures) : Books sys h' (result :: issued) := by
  cases call with
  | kumalloc size => exact kumalloc_books fits books ran quiet
  | kucalloc nmemb size =>
    simp only [Call.exec, kucalloc] at ran
    split at ran
    · cases ran
      exact books.reissue (.inl rfl)
    · obtain ⟨⟨block, middle⟩, allocated, ran⟩ := bind_eq_ok.mp ran
      obtain ⟨final, cleared, last⟩ := bind_eq_ok.mp ran
      cases last
      obtain ⟨mem, rfl⟩ := memsetZero_mem cleared
      rw [productSize_exact fits.1] at allocated
      exact (kumalloc_books fits.2 books allocated quiet).of_mem mem
  | kufree ptr =>
    obtain ⟨final, ran, last⟩ := bind_eq_ok.mp ran
    cases last
    exact kufree_books books known ran quiet
  | kurealloc ptr size =>
    simp only [Call.exec, kurealloc] at ran
    split at ran
    · obtain ⟨final, ran, last⟩ := bind_eq_ok.mp ran
      cases last
      exact kufree_books books known ran quiet
    · split at ran
      · refine kumalloc_books (fits.2.le ?_) books ran quiet
        unfold exactTotal
        omega
      · obtain ⟨prevSize, _, ran⟩ := bind_eq_ok.mp ran
        split at ran
        · cases ran
          exact books.reissue known
        · obtain ⟨⟨block, middle⟩, allocated, ran⟩ := bind_eq_ok.mp ran
          obtain ⟨final, copied, last⟩ := bind_eq_ok.mp ran
          cases last
          obtain ⟨mem, rfl⟩ := memcpy_mem copied
          rw [totalSize_exact fits.1] at allocated
          exact (kumalloc_books fits.2 books allocated quiet).of_mem mem

/-- The books balance in every state of every run. -/
theorem wild_run_books (run : WildRun sys h issued) : Books sys h issued := by
  induction run with
  | start mem =>
    exact ⟨⟨Nat.le_refl _, sys.base_le_limit, fun _ => rfl, fun used => absurd rfl used⟩,
      fun _ => rfl, by simp⟩
  | scribble mem _ books => exact books.of_mem mem
  | call _ known fits ran quiet books => exact exec_books books known fits ran quiet

/-- A request that no listed block fits is served at `block_end`, or at the
break if there is no block yet. -/
theorem kumalloc_grown (positive : 0 < size) (fits : RequestFits size) (ledger : Ledger sys h)
    (unfit : findBlock sys h (exactTotal size) rounds h.head = .ok 0)
    (ran : kumalloc sys rounds h size = .ok (p, h'))
    (quiet : h'.sbrkFailures = h.sbrkFailures) :
    ∃ block grown, Grown sys h (exactTotal size) block grown ∧ p = block + 8 ∧
      grown.setSize sys block (exactTotal size) = .ok h' := by
  simp only [kumalloc, if_neg (Nat.ne_of_gt positive), totalSize_exact fits.1] at ran
  obtain ⟨block, found, ran⟩ := bind_eq_ok.mp ran
  rw [unfit] at found
  cases found
  simp only [if_true] at ran
  obtain ⟨final, stored, last⟩ := bind_eq_ok.mp ran
  cases last
  have grown := growHeap_grown fits.2 ledger
    ((store_sameBreak stored).sbrkFailures.symm.trans quiet)
  refine ⟨_, _, grown, ?_, stored⟩
  have within := grown.within
  have high := grown.ledger.high
  have limit := sys.limit_lt
  rw [blockSize, add_of_lt (by omega)]

/-- Once there is a block, `block_end` plus `available_memory` is the break, in
every state of every run; and a block that `kumalloc` does not take from the
free list starts at `block_end`, at the break if it is the very first, and ends
at or below the new break. -/
theorem break_accounted (run : WildRun sys h issued) :
    (h.blockEnd ≠ 0 → h.blockEnd + h.availableMemory = h.brk) ∧
    ∀ rounds size p h', 0 < size → RequestFits size →
      findBlock sys h (exactTotal size) rounds h.head = .ok 0 →
      kumalloc sys rounds h size = .ok (p, h') → h'.sbrkFailures = h.sbrkFailures →
      p = (if h.blockEnd = 0 then h.brk else h.blockEnd) + 8 ∧
        p - 8 + exactTotal size ≤ h'.brk := by
  have books := wild_run_books run
  refine ⟨books.ledger.balance, fun rounds size p h' positive fits unfit ran quiet => ?_⟩
  obtain ⟨block, grown, shape, place, stored⟩ :=
    kumalloc_grown positive fits books.ledger unfit ran quiet
  rw [place, (store_sameBreak stored).brk, ← shape.placed]
  exact ⟨rfl, shape.within⟩

/-- A first block, and a second one right after it. -/
theorem break_accounted_two_blocks :
    ∃ h, WildRun pagedSystem h [65544] ∧ h.blockEnd + h.availableMemory = h.brk ∧
      ∀ h', kumalloc pagedSystem 1 h 8 = .ok (65560, h') → h'.sbrkFailures = h.sbrkFailures →
        65552 + 16 ≤ h'.brk := by
  have run : WildRun pagedSystem
      ⟨storeBytes (fun _ => 0) 65536 16 8, 0, 65552, 8176, 73728, 1, 0⟩ [65544] :=
    .call (.start fun _ => 0) (show (Call.kumalloc 8).FromIssued [] from trivial) (by decide)
      (show (Call.kumalloc 8).exec pagedSystem 1 _ = _ from rfl) rfl
  refine ⟨_, run, (break_accounted run).1 (by decide), fun h' ran quiet => ?_⟩
  exact ((break_accounted run).2 1 8 65560 h' (by decide) (by decide) rfl ran quiet).2

end Comp304.Alloc
