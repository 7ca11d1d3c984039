import Comp304.Alloc.Refusal
import Comp304.Alloc.Requests

/-! The sizes `kumalloc` and `kucalloc` compute, over all 64-bit arguments. The
header is added and the sum rounded up without a check, the capacity becomes an
`intptr_t`, and `nmemb * size` is a product of `size_t`: each of them can wrap,
and each time what is handed out is smaller than what was asked for. -/
namespace Comp304.Alloc
open Library.Budget Library.ByteMemory Library.Lp64 Library.LinkedChain Heap

/-- No listed block has this size, and too little is left over. -/
def MustGrow (sys : System) (h : Heap) (total : Nat) : Prop :=
  (∃ rounds, findBlock sys h total rounds h.head = .ok 0) ∧
    (h.availableMemory = 0 ∨ h.availableMemory < total)

/-- `kumalloc` returns NULL or a block whose header says that the request fits,
and asks the system for no less than the block needs. -/
structure Sized (sys : System) (h : Heap) (size : Nat) : Prop where
  returns : ∃ rounds p h', kumalloc sys rounds h size = .ok (p, h') ∧
    (p = 0 ∨ size + 8 ≤ h'.sizeAt (p - 8))
  asked : MustGrow sys h (sizeAlign (add size blockSize)) →
    0 < toIntptr (capacity (sizeAlign (add size blockSize))) ∧
      (sizeAlign (add size blockSize) : Int) ≤ toIntptr (capacity (sizeAlign (add size blockSize)))

/-- If nothing on the list fits, the growth is granted, or there is something
left over and the header of a block at `block_end` is mapped all the same. -/
def Growable (sys : System) (h : Heap) (nodes : List Nat) (total : Nat) : Prop :=
  h.firstFit nodes total = none → (growHeap sys h total).2.sbrkFailures = h.sbrkFailures ∨
    h.availableMemory ≠ 0 ∧ h.accessible sys h.blockEnd 8 = true

/-- The payload of the block at `r` lies in the heap and holds so many bytes, all
of them zero; and as many bytes from `r` on as were cleared are in it. -/
structure Cleared (h : Heap) (r count cleared : Nat) : Prop where
  holds : count + 8 ≤ h.sizeAt (r - 8)
  inside : r - 8 + h.sizeAt (r - 8) ≤ h.brk
  zero : ∀ i < count, h.mem (r + i) = 0
  within : cleared + 8 ≤ h.sizeAt (r - 8)

/-- `kucalloc` returns NULL and clears nothing, or it returns a block that holds
the whole array, cleared. -/
def ArrayServed (sys : System) (h : Heap) (nmemb size : Nat) : Prop :=
  ∃ rounds r h', kucalloc sys rounds h nmemb size = .ok (r, h') ∧
    (r = 0 ∧ sizeAlign (mul nmemb size) = 0 ∨
      r ≠ 0 ∧ Cleared h' r (nmemb * size) (sizeAlign (mul nmemb size)))

section
variable {sys : System} {s : State} {h h' : Heap} {live : List Block} {free : List Nat}

/-! ### Arithmetic that wraps -/

/-- The header and the rounding together come to nothing. -/
theorem totalSize_wraps (bound : size + 8 < 2 ^ 64) (wraps : 2 ^ 64 ≤ size + 15) :
    sizeAlign (add size blockSize) = 0 := by
  rw [blockSize, add_of_lt bound]
  simp only [sizeAlign, add, sub, mul]
  omega

/-- A capacity of 2^63 bytes or more is negative or zero for `sbrk`. -/
theorem capacity_wraps (small : total < 2 ^ 64) (large : 2 ^ 63 ≤ (total / 8192 + 1) * 8192) :
    toIntptr (capacity total) ≤ 0 := by
  have many : total > 8192 := by omega
  have frames : add (total / 8192) 1 = total / 8192 + 1 := add_of_lt (by omega)
  simp only [capacity, if_pos many, frames, mul]
  exact toIntptr_nonpos large (by omega)

/-! ### Growth that is refused -/

/-- The system refuses a call of `sbrk`, or it counts no failure. -/
theorem sbrk_answer (sys : System) (h : Heap) (increment : Int) :
    sbrk sys h increment =
        (2 ^ 64 - 1, { h with sbrkCalls := h.sbrkCalls + 1, sbrkFailures := h.sbrkFailures + 1 }) ∨
      (sbrk sys h increment).2.sbrkFailures = h.sbrkFailures := by
  unfold sbrk
  split
  · exact Or.inr rfl
  · exact Or.inl rfl

/-- A growth that was refused is one that needed `sbrk`. -/
theorem growHeap_refused (refused : (growHeap sys h total).2.sbrkFailures ≠ h.sbrkFailures) :
    sbrk sys h (toIntptr (capacity total)) =
        (2 ^ 64 - 1, { h with sbrkCalls := h.sbrkCalls + 1, sbrkFailures := h.sbrkFailures + 1 }) ∧
      (h.availableMemory = 0 ∨ h.availableMemory < total) := by
  have answer := sbrk_answer sys h (toIntptr (capacity total))
  simp only [growHeap] at refused
  split at refused
  · next fresh => exact ⟨answer.resolve_right refused, Or.inl fresh⟩
  · split at refused
    · exact absurd rfl refused
    · next short => exact ⟨answer.resolve_right refused, Or.inr (Nat.lt_of_not_le short)⟩

/-- The header of the new block can be written exactly if the heap is growable. -/
theorem growHeap_mapped_iff (tidy : Tidy sys h live free) (wide : 8 ≤ total)
    (fits : (total / 8192 + 1) * 8192 < 2 ^ 63) :
    (growHeap sys h total).2.accessible sys (growHeap sys h total).1 8 = true ↔
      (growHeap sys h total).2.sbrkFailures = h.sbrkFailures ∨
        h.availableMemory ≠ 0 ∧ h.accessible sys h.blockEnd 8 = true := by
  by_cases granted : (growHeap sys h total).2.sbrkFailures = h.sbrkFailures
  · have access := (growHeap_grown fits tidy.ledger granted).header_accessible tidy wide
    simp only [access, granted, true_or]
  · obtain ⟨refused, short⟩ := growHeap_refused granted
    simp only [granted, false_or]
    by_cases fresh : h.availableMemory = 0
    · have placed : (growHeap sys h total).1 = 2 ^ 64 - 1 :=
        growHeap_refused_fresh fresh (by rw [refused])
      simp only [fresh, ne_eq, not_true_eq_false, false_and, iff_false]
      intro access
      have bounds := accessible_bounds access
      omega
    · obtain ⟨placed, -, still⟩ := growHeap_refused_short fresh (short.resolve_left fresh) refused
      simp only [accessible, placed, still, ne_eq, fresh, not_false_eq_true, true_and]

/-! ### `kumalloc` -/

/-- Taking no bytes from the head writes zero into its header last. -/
theorem reuseBlock_nothing_header (first : h.head = block) (high : block < 2 ^ 63)
    (ran : reuseBlock sys rounds h block 0 = .ok h') : h'.word block = 0 := by
  have subseq : add block 0 = block := add_of_lt (show block + 0 < 2 ^ 64 by omega)
  simp only [reuseBlock, subseq, setNext, setSize, getSize, bind_eq_ok, store_eq_ok, load_eq_ok,
    and_assoc, exists_and_left, exists_eq_left, put_head] at ran
  obtain ⟨-, -, -, -, ran⟩ := ran
  replace ran := (if_pos first).symm.trans ran
  generalize toSize _ = remainder at ran
  generalize subInt _ _ = sizeDiff at ran
  generalize shape : ((h.put (block + 8) 0).put block remainder).put block 0 = g at ran
  have header : g.word block = 0 := by
    rw [← shape]
    exact word_put_same (by omega)
  have next : g.word (block + 8) = 0 := by
    rw [← shape, word_put_apart (by omega), word_put_apart (by omega)]
    exact word_put_same (by omega)
  have head : g.head = block := by
    rw [← shape]
    exact first
  by_cases positive : 0 < sizeDiff
  · obtain ⟨-, -, -, -, rfl⟩ := (reuseHead_eq_ok head positive).mp ran
    rw [setHead_word, word_put_apart (by omega), word_put_apart (by omega), header]
  · obtain ⟨-, ⟨-, rfl⟩ | ⟨more, -⟩⟩ := (reuseHead_spent_eq_ok head positive).mp ran
    · exact header
    · exact absurd next more

/-- A total that wrapped to nothing is what the header of the block says. -/
theorem kumalloc_wrapped_header (tidy : Tidy sys h live free) (positive : 0 < size)
    (wraps : sizeAlign (add size blockSize) = 0)
    (ran : kumalloc sys rounds h size = .ok (p, h')) : h'.word (p - 8) = 0 := by
  simp only [kumalloc, if_neg (Nat.ne_of_gt positive), wraps] at ran
  obtain ⟨block, found, ran⟩ := bind_eq_ok.mp ran
  have search := (findBlock_settles (fun n => tidy.node_accessible) tidy.chain).returned found
  cases free with
  | nil =>
    cases search
    simp only [firstFit, List.find?_nil, Option.getD_none, if_true] at ran
    obtain ⟨final, stored, last⟩ := bind_eq_ok.mp ran
    cases last
    obtain ⟨mapped, rfl⟩ := store_eq_ok.mp stored
    rw [add_header (accessible_bounds mapped).2, Nat.add_sub_cancel]
    exact word_put_same (by omega)
  | cons node rest =>
    have taken : h.firstFit (node :: rest) 0 = some node := by simp [firstFit]
    rw [taken] at search
    cases search
    have first : h.head = node := tidy.chain.head_eq
    have nonnull : node ≠ 0 := tidy.chain.ne_null (by simp)
    simp only [Option.getD_some, if_neg nonnull] at ran
    obtain ⟨final, reused, last⟩ := bind_eq_ok.mp ran
    cases last
    have high := (reuseBlock_bounds reused).2
    rw [add_header high, Nat.add_sub_cancel]
    exact reuseBlock_nothing_header first high reused

/-- In a heap in order the search fails when the list has nothing large enough. -/
theorem mustGrow_iff (tidy : Tidy sys h live free) : MustGrow sys h total ↔
    h.firstFit free total = none ∧ (h.availableMemory = 0 ∨ h.availableMemory < total) := by
  have settles : ∀ rounds, Settles .spent _ rounds (findBlock sys h total rounds h.head) _ :=
    fun rounds => findBlock_settles (fun n => tidy.node_accessible) tidy.chain
  have unfit : (∃ rounds, findBlock sys h total rounds h.head = .ok 0) ↔
      h.firstFit free total = none := by
    constructor
    · rintro ⟨rounds, found⟩
      have search := (settles rounds).returned found
      cases fit : h.firstFit free total with
      | none => rfl
      | some block =>
        rw [fit] at search
        have null : block = 0 := Except.ok.inj search
        exact absurd null (tidy.chain.ne_null (List.mem_of_find?_eq_some fit))
    · intro none
      refine ⟨free.length + 1, ?_⟩
      have search := (settles (free.length + 1)).reached (Nat.lt_succ_self _)
      rwa [none] at search
  rw [MustGrow, unfit]

/-- The listed blocks and what is left over are all smaller than the heap. -/
theorem Tidy.mustGrow_of_large (tidy : Tidy sys h live free) (large : 2 ^ 31 ≤ total) :
    MustGrow sys h total := by
  have bounded := tidy.bounded
  refine (mustGrow_iff tidy).mpr ⟨List.find?_eq_none.mpr fun n member => ?_, Or.inr ?_⟩
  · have bounds := tidy.node_bounds member
    have size : h.sizeAt n = h.word n := rfl
    simp only [size, decide_eq_true_eq]
    omega
  · by_cases used : h.blockEnd = 0
    · have none := tidy.ledger.unused used
      omega
    · have balance := tidy.ledger.balance used
      have ordered := tidy.space.tiling.ordered
      rw [top, if_neg used] at ordered
      omega

/-- When a request returns in a heap in order. -/
theorem kumalloc_returns_iff (tidy : Tidy sys h live free) (positive : 0 < size)
    (fits : RequestFits size) : (∃ rounds p h', kumalloc sys rounds h size = .ok (p, h')) ↔
      Reusable h free (exactTotal size) ∧ Growable sys h free (exactTotal size) := by
  obtain ⟨wide, -, -, -⟩ := exactTotal_bounds positive fits
  have settles : ∀ rounds, Settles .spent _ rounds (kumalloc sys rounds h size) _ := fun rounds =>
    kumalloc_settles tidy positive fits.1
  constructor
  · rintro ⟨rounds, p, h', ran⟩
    refine ⟨Classical.byContradiction fun stuck => ?_, fun none => ?_⟩
    · cases (kumalloc_faults tidy positive fits stuck).returned ran
    · have outcome := (settles rounds).returned ran
      simp only [none] at outcome
      obtain ⟨final, stored, -⟩ := bind_eq_ok.mp outcome
      exact (growHeap_mapped_iff tidy (by omega) fits.2).mp (store_eq_ok.mp stored).1
  · rintro ⟨reusable, growable⟩
    cases found : h.firstFit free (exactTotal size) with
    | none =>
      have access := (growHeap_mapped_iff tidy (by omega) fits.2).mpr (growable found)
      have outcome := (settles (free.length + 1)).reached (Nat.lt_succ_self _)
      simp only [found, setSize, store_ok access, ok_bind] at outcome
      exact ⟨_, _, _, outcome⟩
    | some block =>
      have granted : GrowthGranted sys h free (exactTotal size) := fun none => by
        rw [found] at none
        cases none
      obtain ⟨p, h', returns, -⟩ := kumalloc_returns tidy positive fits reusable granted
      exact ⟨_, p, h', (returns (free.length + 1)).reached (Nat.lt_succ_self _)⟩

/-- For every 64-bit size: the block is large enough and the capacity is right
exactly if nothing wraps and the request is served. -/
theorem clean_run_sized (run : CleanRun sys s) (list : s.heap.FreeList free) (positive : 0 < size)
    (bound : size < 2 ^ 64) : Sized sys s.heap size ↔ RequestFits size ∧
      Reusable s.heap free (exactTotal size) ∧ Growable sys s.heap free (exactTotal size) := by
  have tidy := clean_run_lists run list
  constructor
  · rintro ⟨⟨rounds, p, h', ran, enough⟩, asked⟩
    obtain ⟨block, rfl, -⟩ := kumalloc_issued positive ran
    have enough : size + 8 ≤ h'.word (block + 8 - 8) := enough.resolve_left (Nat.succ_ne_zero _)
    have recorded := word_lt h' (block + 8 - 8)
    have exact : size + 15 < 2 ^ 64 := by
      by_contra wraps
      have total : sizeAlign (add size blockSize) = 0 := totalSize_wraps (by omega) (by omega)
      have header := kumalloc_wrapped_header tidy positive total ran
      omega
    rw [totalSize_exact exact] at asked
    have fits : RequestFits size := by
      refine ⟨exact, ?_⟩
      by_contra wraps
      have small : exactTotal size < 2 ^ 64 := by
        unfold exactTotal
        omega
      have large : 2 ^ 63 ≤ (exactTotal size / 8192 + 1) * 8192 := by omega
      have negative := capacity_wraps small large
      have grows := asked (tidy.mustGrow_of_large (by omega))
      omega
    exact ⟨fits, (kumalloc_returns_iff tidy positive fits).mp ⟨rounds, _, h', ran⟩⟩
  · rintro ⟨fits, served⟩
    obtain ⟨-, -, -, holds⟩ := exactTotal_bounds positive fits
    obtain ⟨rounds, p, h', ran⟩ := (kumalloc_returns_iff tidy positive fits).mpr served
    have header : h'.sizeAt (p - 8) = exactTotal size :=
      kumalloc_header positive fits (tidy.takesSafely _) ran
    refine ⟨⟨rounds, p, h', ran, Or.inr (header ▸ holds)⟩, fun _ => ?_⟩
    obtain ⟨room, -, signed⟩ := capacity_exact fits.2
    rw [totalSize_exact fits.1, signed]
    omega

/-- With a listed block that is large enough. -/
theorem clean_run_sized_reached : ∃ s : State, s.heap.head ≠ 0 ∧ Sized pagedSystem s.heap 100 := by
  have ends : (playScript pagedSystem Call.checkClean 64 freshState
      [.kumalloc 200, .kumalloc 8, .kufree 65544]).any (fun s => s.heap.head ≠ 0 ∧
        (s.heap.listed 64 s.heap.head).any fun nodes =>
          Reusable s.heap nodes (exactTotal 100) ∧
            s.heap.firstFit nodes (exactTotal 100) ≠ none) = true := by
    decide +kernel
  obtain ⟨s, run, shape⟩ := clean_of_script ends
  obtain ⟨listed, served⟩ := of_decide_eq_true shape
  obtain ⟨free, tidy⟩ := clean_run_tidy run
  obtain ⟨reusable, fit⟩ := of_decide_eq_true (listed_any served tidy.chain)
  exact ⟨s, listed, (clean_run_sized run tidy.chain (by decide) (by decide)).mpr
    ⟨by decide, reusable, fun none => absurd none fit⟩⟩

/-- No header holds a size that does not fit in 64 bits. -/
theorem not_sized_of_huge (huge : 2 ^ 64 ≤ size + 8) : ¬ Sized sys h size := by
  rintro ⟨⟨rounds, p, h', ran, enough⟩, -⟩
  obtain ⟨block, rfl, -⟩ := kumalloc_issued (show 0 < size by omega) ran
  have recorded : h'.sizeAt (block + 8 - 8) < 2 ^ 64 := word_lt h' _
  have enough := enough.resolve_left (Nat.succ_ne_zero _)
  omega

/-- The first request asks for as much as a `size_t` can say, and gets eight bytes,
the header included. -/
theorem valid_run_undersizes : ValidRun pagedSystem freshState ∧
    (∃ h', kumalloc pagedSystem 1 freshState.heap (2 ^ 64 - 1) = .ok (65544, h') ∧
      h'.sizeAt 65536 = 8) ∧ ¬ Sized pagedSystem freshState.heap (2 ^ 64 - 1) := by
  refine ⟨.start _, ?_, not_sized_of_huge (by decide)⟩
  have returns : (kumalloc pagedSystem 1 freshState.heap (2 ^ 64 - 1)).toOption.any (fun outcome =>
      outcome.1 = 65544 ∧ outcome.2.sizeAt 65536 = 8) = true := by
    decide +kernel
  obtain ⟨⟨p, h'⟩, ran, outcome⟩ := (Option.any_eq_true _ _).mp returns
  obtain ⟨rfl, recorded⟩ := of_decide_eq_true outcome
  exact ⟨h', toOption_eq_some.mp ran, recorded⟩

/-! ### `kucalloc` -/

theorem sbrk_blockEnd (sys : System) (h : Heap) (increment : Int) :
    (sbrk sys h increment).2.blockEnd = h.blockEnd := by
  unfold sbrk
  split <;> rfl

theorem growHeap_brk (short : h.availableMemory = 0 ∨ h.availableMemory < total) :
    (growHeap sys h total).2.brk = (sbrk sys h (toIntptr (capacity total))).2.brk := by
  unfold growHeap
  by_cases fresh : h.availableMemory = 0
  · rw [if_pos fresh]
  · rw [if_neg fresh, if_neg (Nat.not_le_of_lt (short.resolve_left fresh))]

/-- A growth that does not raise the break leaves its block beyond it. -/
theorem growHeap_beyond (ledger : Ledger sys h) (positive : 0 < total)
    (short : h.availableMemory = 0 ∨ h.availableMemory < total)
    (still : (sbrk sys h (toIntptr (capacity total))).2.brk ≤ h.brk) :
    (growHeap sys h total).2.brk < (growHeap sys h total).1 + total := by
  have high := ledger.high
  have limit := sys.limit_lt
  rw [growHeap_brk short]
  refine Nat.lt_of_le_of_lt still ?_
  by_cases fresh : h.availableMemory = 0
  · have placed : (growHeap sys h total).1 = (sbrk sys h (toIntptr (capacity total))).1 := by
      rw [growHeap, if_pos fresh]
    rw [placed]
    cases sbrk_answer sys h (toIntptr (capacity total)) with
    | inl refused =>
      have far : h.brk < 2 ^ 64 - 1 := by omega
      rw [refused]
      exact Nat.lt_of_lt_of_le far (Nat.le_add_right _ total)
    | inr quiet =>
      rw [(sbrk_granted quiet).1]
      exact Nat.lt_add_of_pos_right positive
  · have less := short.resolve_left fresh
    have used : h.blockEnd ≠ 0 := fun unused => fresh (ledger.unused unused)
    have balance := ledger.balance used
    have placed : (growHeap sys h total).1 = h.blockEnd := by
      simp only [growHeap, if_neg fresh, if_neg (Nat.not_le_of_lt less), sbrk_blockEnd]
    omega

/-- Where the block of a request that returned is, and how far it may reach. -/
theorem kumalloc_within (tidy : Tidy sys h live free) (positive : 0 < size) (fits : RequestFits size)
    (granted : GrowthGranted sys h free (exactTotal size))
    (ran : kumalloc sys rounds h size = .ok (p, h')) :
    ∃ block, p = block + 8 ∧ sys.base ≤ block ∧ block + exactTotal size ≤ h'.brk ∧
      h'.brk ≤ sys.limit := by
  have outcome := (kumalloc_settles tidy positive fits.1).returned ran
  have limit := sys.limit_lt
  cases found : h.firstFit free (exactTotal size) with
  | none =>
    simp only [found] at outcome
    have grown := growHeap_grown fits.2 tidy.ledger (granted found)
    obtain ⟨final, stored, last⟩ := bind_eq_ok.mp outcome
    cases last
    obtain ⟨mapped, rfl⟩ := store_eq_ok.mp stored
    have low : sys.base ≤ (growHeap sys h (exactTotal size)).1 :=
      grown.at_top tidy ▸ tidy.space.tiling.ordered
    exact ⟨_, add_header (accessible_bounds mapped).2, low, grown.within, grown.ledger.high⟩
  | some block =>
    simp only [found] at outcome
    obtain ⟨final, reused, last⟩ := bind_eq_ok.mp outcome
    cases last
    have large := List.find?_some found
    simp only [decide_eq_true_eq] at large
    have bounds := tidy.node_bounds (List.mem_of_find?_eq_some found)
    have same := reuseBlock_sameBreak reused
    have large : exactTotal size ≤ h.word block := large
    refine ⟨block, add_header (reuseBlock_bounds reused).2, bounds.1, ?_, ?_⟩
    · rw [same.brk]
      omega
    · rw [same.brk]
      exact tidy.ledger.high

/-- A growth whose block is inside the heap was granted, and its capacity did not
wrap. -/
theorem growHeap_inside (tidy : Tidy sys h live free) (positive : 0 < total) (small : total < 2 ^ 64)
    (inside : (growHeap sys h total).1 + total ≤ (growHeap sys h total).2.brk) :
    (growHeap sys h total).2.sbrkFailures = h.sbrkFailures ∧
      (total / 8192 + 1) * 8192 < 2 ^ 63 := by
  constructor
  · by_contra denied
    obtain ⟨refused, short⟩ := growHeap_refused denied
    have beyond := growHeap_beyond tidy.ledger positive short (by rw [refused])
    omega
  · by_contra wraps
    have negative := capacity_wraps small (by omega)
    have large : MustGrow sys h total := tidy.mustGrow_of_large (by omega)
    have short := (mustGrow_iff tidy).mp large
    have still : (sbrk sys h (toIntptr (capacity total))).2.brk ≤ h.brk := by
      unfold sbrk
      split
      · simp only
        omega
      · exact Nat.le_refl _
    have beyond := growHeap_beyond tidy.ledger positive short.2 still
    omega

/-- The zero-fill does not reach back to the header. -/
theorem fill_header (block width : Nat) :
    ({ h with mem := fill h.mem (block + 8) 0 width } : Heap).word block = h.word block :=
  word_congr fun _ _ high => fill_outside h.mem 0 (Or.inl high)

/-- What the block must have been for the array to fit into it, cleared. -/
theorem cleared_needs (tidy : Tidy sys h live free) (positive : 0 < sizeAlign (mul nmemb size))
    (ran : kumalloc sys rounds h (sizeAlign (mul nmemb size)) = .ok (block + 8, h'))
    (cleared : Cleared { h' with mem := fill h'.mem (block + 8) 0 (sizeAlign (mul nmemb size)) }
      (block + 8) (nmemb * size) (sizeAlign (mul nmemb size))) :
    (Call.kucalloc nmemb size).NoWrap ∧
      Reusable h free (exactTotal ((nmemb * size + 7) / 8 * 8)) ∧
      GrowthGranted sys h free (exactTotal ((nmemb * size + 7) / 8 * 8)) := by
  have header : Heap.sizeAt { h' with mem := fill h'.mem (block + 8) 0 (sizeAlign (mul nmemb size)) }
      (block + 8 - 8) = h'.word block := fill_header block _
  obtain ⟨holds, inside, -, within⟩ := cleared
  rw [header] at holds inside within
  have recorded := word_lt h' block
  have product : nmemb * size + 7 < 2 ^ 64 := by omega
  rw [productSize_exact product] at positive ran within
  generalize array : (nmemb * size + 7) / 8 * 8 = request at positive ran within ⊢
  have exact : request + 15 < 2 ^ 64 := by omega
  have total : exactTotal request = request + 8 := by
    unfold exactTotal
    omega
  have settled := (kumalloc_settles tidy positive exact).returned ran
  have grown : h.firstFit free (exactTotal request) = none →
      (growHeap sys h (exactTotal request)).2.sbrkFailures = h.sbrkFailures ∧
        (exactTotal request / 8192 + 1) * 8192 < 2 ^ 63 := by
    intro none
    simp only [none] at settled
    obtain ⟨final, stored, last⟩ := bind_eq_ok.mp settled
    obtain ⟨mapped, rfl⟩ := store_eq_ok.mp stored
    obtain ⟨place, rfl⟩ := Prod.mk.inj (Except.ok.inj last)
    rw [add_header (accessible_bounds mapped).2] at place
    obtain rfl : (growHeap sys h (exactTotal request)).1 = block := Nat.add_right_cancel place
    rw [word_put_same (by omega)] at inside
    exact growHeap_inside tidy (by omega) (by omega) inside
  have fits : RequestFits request := by
    refine ⟨exact, ?_⟩
    by_contra wraps
    have large : MustGrow sys h (exactTotal request) := tidy.mustGrow_of_large (by omega)
    have short := (mustGrow_iff tidy).mp large
    exact wraps (grown short.1).2
  refine ⟨⟨product, ?_⟩, ?_, fun none => (grown none).1⟩
  · rwa [array]
  · by_contra stuck
    cases (kumalloc_faults tidy positive fits stuck).returned ran

/-- An array of no bytes is NULL, and the zero-fill is empty. -/
theorem kucalloc_nothing (nothing : sizeAlign (mul nmemb size) = 0) :
    ∃ h', kucalloc sys rounds h nmemb size = .ok (0, h') := by
  unfold kucalloc
  split
  · exact ⟨h, rfl⟩
  · have empty : h.accessible sys 0 0 = true := rfl
    simp only [nothing, kumalloc, if_true, ok_bind, memsetZero, empty]
    exact ⟨_, rfl⟩

/-- A request that is served is cleared to its end. -/
theorem kucalloc_cleared (tidy : Tidy sys h live free) (positive : 0 < sizeAlign (mul nmemb size))
    (fits : (Call.kucalloc nmemb size).NoWrap)
    (reusable : Reusable h free (exactTotal ((nmemb * size + 7) / 8 * 8)))
    (granted : GrowthGranted sys h free (exactTotal ((nmemb * size + 7) / 8 * 8))) :
    ∃ r h', (∀ rounds, Settles .spent free.length rounds (kucalloc sys rounds h nmemb size)
        (.ok (r, h'))) ∧ r ≠ 0 ∧ Cleared h' r (nmemb * size) (sizeAlign (mul nmemb size)) := by
  have nonzero : ¬ (size = 0 ∨ nmemb = 0) := by
    rintro (rfl | rfl) <;> simp [mul] at positive <;> exact absurd positive (by decide)
  have asked : nmemb * size ≤ (nmemb * size + 7) / 8 * 8 := by omega
  simp only [kucalloc, if_neg nonzero, productSize_exact fits.1] at positive ⊢
  have fits' := fits.2
  have total : exactTotal ((nmemb * size + 7) / 8 * 8) = (nmemb * size + 7) / 8 * 8 + 8 := by
    unfold exactTotal
    omega
  generalize (nmemb * size + 7) / 8 * 8 = request at *
  obtain ⟨p, h', returns, -⟩ := kumalloc_returns tidy positive fits' reusable granted
  have ran := (returns (free.length + 1)).reached (Nat.lt_succ_self _)
  obtain ⟨block, rfl, low, inside, high⟩ := kumalloc_within tidy positive fits' granted ran
  have header : h'.word (block + 8 - 8) = exactTotal request :=
    kumalloc_header positive fits' (tidy.takesSafely _) ran
  have mapped : h'.accessible sys (block + 8) request = true :=
    accessible_inside (by omega) (by omega) high
  refine ⟨block + 8, { h' with mem := fill h'.mem (block + 8) 0 request }, fun rounds => ?_,
    Nat.succ_ne_zero _, ?_⟩
  · refine Settles.bind (returns rounds) (.of_eq ?_)
    simp only [memsetZero, if_pos mapped, ok_bind]
  · have size' : Heap.sizeAt { h' with mem := fill h'.mem (block + 8) 0 request } (block + 8 - 8) =
        request + 8 := (fill_header block request).trans (header.trans total)
    refine ⟨?_, ?_, fun i inArray => ?_, ?_⟩
    · omega
    · rw [size', Nat.add_sub_cancel]
      exact total ▸ inside
    · exact fill_inside h'.mem 0 (by omega)
    · omega

/-- For every two 64-bit numbers: the array is handed out whole and cleared, or
nothing is, exactly if the length is zero modulo 2^64 or nothing wraps and the
request is served. -/
theorem clean_run_arrays (run : CleanRun sys s) (list : s.heap.FreeList free) :
    ArrayServed sys s.heap nmemb size ↔ sizeAlign (mul nmemb size) = 0 ∨
      (Call.kucalloc nmemb size).NoWrap ∧
        Reusable s.heap free (exactTotal ((nmemb * size + 7) / 8 * 8)) ∧
        GrowthGranted sys s.heap free (exactTotal ((nmemb * size + 7) / 8 * 8)) := by
  have tidy := clean_run_lists run list
  constructor
  · rintro ⟨rounds, r, h', ran, outcome⟩
    by_cases nothing : sizeAlign (mul nmemb size) = 0
    · exact Or.inl nothing
    · obtain ⟨nonnull, cleared⟩ := outcome.resolve_left fun null => nothing null.2
      have nonzero : ¬ (size = 0 ∨ nmemb = 0) := by
        rintro (rfl | rfl) <;> simp [mul] at nothing <;> exact nothing (by decide)
      simp only [kucalloc, if_neg nonzero] at ran
      obtain ⟨⟨q, middle⟩, allocated, ran⟩ := bind_eq_ok.mp ran
      obtain ⟨final, filled, last⟩ := bind_eq_ok.mp ran
      cases last
      obtain ⟨block, rfl, -⟩ := kumalloc_issued (Nat.pos_of_ne_zero nothing) allocated
      unfold memsetZero at filled
      split at filled
      · cases filled
        exact Or.inr (cleared_needs tidy (Nat.pos_of_ne_zero nothing) allocated cleared)
      · cases filled
  · intro served
    by_cases nothing : sizeAlign (mul nmemb size) = 0
    · obtain ⟨h', ran⟩ : ∃ h', kucalloc sys 0 s.heap nmemb size = .ok (0, h') :=
        kucalloc_nothing nothing
      exact ⟨0, 0, h', ran, Or.inl ⟨rfl, nothing⟩⟩
    · obtain ⟨fits, reusable, granted⟩ := served.resolve_left nothing
      obtain ⟨r, h', returns, cleared⟩ :=
        kucalloc_cleared tidy (Nat.pos_of_ne_zero nothing) fits reusable granted
      exact ⟨_, r, h', (returns (free.length + 1)).reached (Nat.lt_succ_self _), Or.inr cleared⟩

/-- Three times eight bytes, in a heap with a listed block. -/
theorem clean_run_arrays_reached : ∃ s : State, s.heap.head ≠ 0 ∧ ArrayServed pagedSystem s.heap 3 8 := by
  have ends : (playScript pagedSystem Call.checkClean 64 freshState
      [.kumalloc 200, .kumalloc 8, .kufree 65544]).any (fun s => s.heap.head ≠ 0 ∧
        (s.heap.listed 64 s.heap.head).any fun nodes =>
          Reusable s.heap nodes (exactTotal 24) ∧
            GrowthGranted pagedSystem s.heap nodes (exactTotal 24)) = true := by
    decide +kernel
  obtain ⟨s, run, shape⟩ := clean_of_script ends
  obtain ⟨listed, served⟩ := of_decide_eq_true shape
  obtain ⟨free, tidy⟩ := clean_run_tidy run
  obtain ⟨reusable, granted⟩ := of_decide_eq_true (listed_any served tidy.chain)
  exact ⟨s, listed, (clean_run_arrays run tidy.chain).mpr
    (Or.inr ⟨by decide, reusable, granted⟩)⟩

/-- No header holds the size of an array that does not fit in 64 bits. -/
theorem not_arrayServed_of_huge (huge : 2 ^ 64 ≤ nmemb * size)
    (asked : sizeAlign (mul nmemb size) ≠ 0) : ¬ ArrayServed sys h nmemb size := by
  rintro ⟨rounds, r, h', ran, outcome⟩
  obtain ⟨-, holds, -, -, -⟩ := outcome.resolve_left fun null => asked null.2
  have recorded : h'.sizeAt (r - 8) < 2 ^ 64 := word_lt h' _
  omega

/-- 2^61 + 1 elements of eight bytes get a block for one of them. -/
theorem valid_run_short_array : ValidRun pagedSystem freshState ∧
    (∃ h', kucalloc pagedSystem 1 freshState.heap (2 ^ 61 + 1) 8 = .ok (65544, h') ∧
      h'.sizeAt 65536 = 16) ∧ ¬ ArrayServed pagedSystem freshState.heap (2 ^ 61 + 1) 8 := by
  refine ⟨.start _, ?_, not_arrayServed_of_huge (by decide) (by decide)⟩
  have returns : (kucalloc pagedSystem 1 freshState.heap (2 ^ 61 + 1) 8).toOption.any (fun outcome =>
      outcome.1 = 65544 ∧ outcome.2.sizeAt 65536 = 16) = true := by
    decide +kernel
  obtain ⟨⟨r, h'⟩, ran, outcome⟩ := (Option.any_eq_true _ _).mp returns
  obtain ⟨rfl, recorded⟩ := of_decide_eq_true outcome
  exact ⟨h', toOption_eq_some.mp ran, recorded⟩

end

end Comp304.Alloc
