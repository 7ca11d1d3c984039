import Comp304.Alloc.Merge

/-! Freeing the last block lowers the end of the heap, and again if the block
before it is free. Both times the break follows. `kufree` as a whole: which of
its paths runs, and that a clean call keeps the heap in order. -/
namespace Comp304.Alloc
open Library.Budget Library.ByteMemory Library.Lp64 Library.Extents Library.LinkedChain Heap

section
variable {sys : System} {h g k h' : Heap} {live : List Block} {free : List Nat} {b : Block}

/-- The end of the heap was moved down, and the break perhaps with it. -/
structure Lowered (sys : System) (h g : Heap) (stop : Nat) : Prop where
  mem : g.mem = h.mem
  head : g.head = h.head
  blockEnd : g.blockEnd = stop
  low : stop ≤ g.brk
  high : g.brk ≤ sys.limit

theorem lower_brk (sys : System) (h : Heap) (node : Nat) (small : size < 2 ^ 63) :
    (lowerEnd sys h node size).brk = h.brk ∨ (lowerEnd sys h node size).brk + size = h.brk := by
  rw [lowerEnd, toIntptr_neg small, sbrk]
  split
  · next allowed =>
    have base := sys.base_above
    simp only at allowed ⊢
    omega
  · exact Or.inl rfl

theorem lowerEnd_frame (sys : System) (h : Heap) (node size : Nat) :
    (lowerEnd sys h node size).mem = h.mem ∧ (lowerEnd sys h node size).head = h.head := by
  unfold lowerEnd sbrk
  split <;> exact ⟨rfl, rfl⟩

/-- A block that reaches the end of the heap can be given back. -/
theorem lower_lowered (small : size < 2 ^ 63) (room : node + size ≤ h.brk)
    (high : h.brk ≤ sys.limit) :
    Lowered sys h (lowerEnd sys h node size) node := by
  have brk := lower_brk sys h node small
  obtain ⟨mem, head⟩ := lowerEnd_frame sys h node size
  have blockEnd : (lowerEnd sys h node size).blockEnd = node := by
    unfold lowerEnd sbrk
    split <;> rfl
  exact ⟨mem, head, blockEnd, by omega, by omega⟩

theorem Lowered.word (lowered : Lowered sys h g stop) (a : Nat) : g.word a = h.word a :=
  word_congr fun x _ _ => congrFun lowered.mem x

/-! ### The trim loop -/

/-- Nodes that do not reach the end of the heap are passed. -/
theorem trimLoop_skip (readable : ∀ n ∈ front, g.accessible sys n 8 = true ∧
      g.accessible sys (n + 8) 8 = true)
    (inside : ∀ n ∈ front, add n (g.word n) ≠ g.blockEnd)
    (path : Path g.nextAt temp front stop) (nonnull : 0 ∉ front) :
    trimLoop sys rounds g temp = trimLoop sys (rounds - front.length) g stop := by
  induction front generalizing rounds temp with
  | nil =>
    have same : temp = stop := path
    rw [same]
    rfl
  | cons node front ih =>
    obtain ⟨rfl, rest⟩ := path
    cases rounds with
    | zero => simp [trimLoop]
    | succ rounds =>
      have here : temp ≠ 0 := fun null => nonnull (by simp [null])
      obtain ⟨sizeRead, nextRead⟩ := readable temp (by simp)
      have below := inside temp (by simp)
      simp only [trimLoop, if_neg here, getSize, getNext, load_ok sizeRead, load_ok nextRead,
        ok_bind, trimBlock, if_neg below, List.length_cons, Nat.add_sub_add_right]
      exact ih (fun n member => readable n (by simp [member]))
        (fun n member => inside n (by simp [member])) rest (fun member => nonnull (by simp [member]))

/-- With no node that reaches the end of the heap, the loop changes nothing. -/
theorem trimLoop_idle (readable : ∀ n ∈ nodes, g.accessible sys n 8 = true ∧
      g.accessible sys (n + 8) 8 = true)
    (inside : ∀ n ∈ nodes, add n (g.word n) ≠ g.blockEnd) (chain : Chain 0 g.nextAt temp nodes) :
    Settles .spent nodes.length rounds (trimLoop sys rounds g temp) (.ok g) := by
  rw [trimLoop_skip readable inside chain.1 chain.2]
  cases left : rounds - nodes.length with
  | zero => exact Or.inr ⟨by omega, rfl⟩
  | succ rounds => exact .of_eq (by simp [trimLoop])

/-- What the loop does with the one block it trims, as far as it looks at it. -/
def trimPlan (sys : System) (g : Heap) (temp size : Nat) : Except Fault Heap := do
  let trimmed ← giveBack sys g temp size
  let _ ← trimmed.getNext sys temp
  .ok trimmed

/-- A block that was given back left the list like one that lost its place to the
node behind it. -/
theorem giveBack_takes (ran : giveBack sys g t size = .ok k) :
    takePlace sys (lowerEnd sys g t size) ((lowerEnd sys g t size).word (t + 8)) t = .ok k := by
  simp only [giveBack] at ran
  generalize lowerEnd sys g t size = l at ran ⊢
  by_cases first : t = l.head
  · simp only [if_pos first, getNext, bind_eq_ok, load_eq_ok, and_assoc, exists_and_left,
      exists_eq_left] at ran
    obtain ⟨-, ran⟩ := ran
    simpa only [takePlace, ← first, ne_eq, not_true_eq_false, if_false] using ran
  · simp only [if_neg first, getNext, getPrev, bind_eq_ok, load_eq_ok, and_assoc,
      exists_and_left, exists_eq_left] at ran
    obtain ⟨prevRead, -, ran⟩ := ran
    simpa only [takePlace, if_pos first, getPrev, load_ok prevRead, ok_bind] using ran

/-- The heap after the block before the freed one is given back as well. -/
theorem giveBack_relinks (tidy : Tidy sys h (b :: live) (front ++ t :: back))
    (linked : h.LinkedBack (front ++ t :: back) t) (lowered : Lowered sys h g b.addr)
    (ends : t + h.word t = b.addr) (ran : giveBack sys g t (h.word t) = .ok k) :
    Relinked h k front back t (h.word (t + 8)) ∧ Untouched (b :: live) h k ∧
      SameBreak (lowerEnd sys g t (h.word t)) k ∧
      ∀ a, (∀ n ∈ front, a + 8 ≤ n ∨ n + 16 ≤ a) → k.word a = h.word a := by
  have bounds := tidy.node_bounds (n := t) (by simp)
  have high := tidy.ledger.high
  have limit := sys.limit_lt
  have taken := giveBack_takes ran
  have lowered' : Lowered sys g (lowerEnd sys g t (h.word t)) t :=
    lower_lowered (by omega) (by have := lowered.low; omega) lowered.high
  generalize lowerEnd sys g t (h.word t) = l at taken lowered' ⊢
  have word : ∀ a, l.word a = h.word a := fun a => (lowered'.word a).trans (lowered.word a)
  rw [word] at taken
  have valid := word_lt h (t + 8)
  obtain ⟨same, relinked, untouched, words⟩ := takePlace_relinks tidy linked (fun _ => id)
    (lowered'.head.trans lowered.head) (word _) (fun n _ => ⟨word _, word _⟩) valid taken
  have unwritten : Untouched (b :: live) h l :=
    (Untouched.refl _ h).of_mem (lowered'.mem.trans lowered.mem)
  exact ⟨relinked, unwritten.trans untouched, same, fun a clear => (words a clear).trans (word a)⟩

/-- Below the last block there are only nodes that end before it. -/
theorem below_last (tidy : Tidy sys h (b :: live) free) (last : h.blockEnd = b.addr + b.total)
    (member : n ∈ free) : n + h.word n ≤ b.addr := by
  have bounds := tidy.node_bounds member
  have apart := tidy.block_apart_node (b := b) (by simp) member
  omega

theorem trimLoop_none (tidy : Tidy sys h (b :: live) free) (last : h.blockEnd = b.addr + b.total)
    (lowered : Lowered sys h g b.addr) (noLeft : h.leftOf free b.addr = none) :
    Settles .spent free.length rounds (trimLoop sys rounds g g.head) (.ok g) := by
  have high := tidy.ledger.high
  have limit := sys.limit_lt
  refine trimLoop_idle (fun n member => ?_) (fun n member => ?_) ?_
  · have below := below_last tidy last member
    have bounds := tidy.node_bounds member
    have low := lowered.low
    exact ⟨accessible_inside (by omega) (by omega) lowered.high,
      accessible_inside (by omega) (by omega) lowered.high⟩
  · have bounds := tidy.node_bounds member
    rw [lowered.blockEnd, lowered.word, add_of_lt (by omega)]
    exact leftOf_none noLeft member
  · rw [lowered.head]
    exact chain_congr (fun n _ => lowered.word _) tidy.chain

theorem trimLoop_hit (tidy : Tidy sys h (b :: live) (front ++ t :: back))
    (last : h.blockEnd = b.addr + b.total) (linked : h.LinkedBack (front ++ t :: back) t)
    (lowered : Lowered sys h g b.addr) (ends : t + h.word t = b.addr) :
    Settles .spent (front ++ t :: back).length rounds (trimLoop sys rounds g g.head)
      (trimPlan sys g t (h.word t)) := by
  have high := tidy.ledger.high
  have limit := sys.limit_lt
  have low := lowered.low
  have bounds := tidy.node_bounds (n := t) (by simp)
  have readable : ∀ n ∈ front ++ t :: back, g.accessible sys n 8 = true ∧
      g.accessible sys (n + 8) 8 = true := by
    intro n member
    have below := below_last tidy last member
    have boundsN := tidy.node_bounds member
    exact ⟨accessible_inside (by omega) (by omega) lowered.high,
      accessible_inside (by omega) (by omega) lowered.high⟩
  have inside : ∀ n ∈ front, add n (g.word n) ≠ g.blockEnd := by
    intro n member
    obtain ⟨listed, different⟩ := tidy.other_ne (List.mem_append_left back member)
    have boundsN := tidy.node_bounds listed
    have apart := tidy.node_apart listed (by simp) different
    rw [lowered.blockEnd, lowered.word, add_of_lt (by omega)]
    omega
  have path : Path g.nextAt g.head front t := by
    rw [lowered.head]
    exact path_congr (fun n _ => lowered.word _) tidy.chain.front_path
  rw [trimLoop_skip (fun n member => readable n (List.mem_append_left _ member)) inside path
    (fun member => tidy.chain.2 (List.mem_append_left _ member))]
  have length : (front ++ t :: back).length = front.length + back.length + 1 := by simp; omega
  cases left : rounds - front.length with
  | zero => exact Or.inr ⟨by omega, rfl⟩
  | succ rest =>
    have nonnull : t ≠ 0 := tidy.chain.ne_null (by simp)
    have reaches : add t (h.word t) = g.blockEnd := by
      rw [lowered.blockEnd, add_of_lt (by omega), ends]
    simp only [trimLoop, if_neg nonnull, getSize, load_ok (readable t (by simp)).1, lowered.word,
      ok_bind, trimBlock, if_pos reaches, trimPlan]
    cases given : giveBack sys g t (h.word t) with
    | error fault => exact .refl _
    | ok k =>
      obtain ⟨relinked, -, same, words⟩ := giveBack_relinks tidy linked lowered ends given
      have link : k.word (t + 8) = h.word (t + 8) := words _ fun n member => by
        have apart := tidy.others_apart (List.mem_append_left _ member)
        omega
      have lowered' : Lowered sys g (lowerEnd sys g t (h.word t)) t :=
        lower_lowered (by omega) (by omega) lowered.high
      have low' : t ≤ k.brk := same.brk ▸ lowered'.low
      have high' : k.brk ≤ sys.limit := same.brk ▸ lowered'.high
      have stop : k.blockEnd = t := same.blockEnd.trans lowered'.blockEnd
      have sizes : ∀ n ∈ back, k.word n = h.word n := fun n member =>
        relinked.sizes n (List.mem_append_right _ member)
      simp only [ok_bind]
      cases read : k.getNext sys t with
      | error fault => exact .refl _
      | ok next =>
        simp only [getNext, load_eq_ok, link] at read
        obtain ⟨-, rfl⟩ := read
        simp only [ok_bind]
        have before : ∀ n ∈ back, n + h.word n + 16 ≤ t ∧ sys.base ≤ n ∧ 16 ≤ h.word n := by
          intro n member
          obtain ⟨listed, different⟩ := tidy.other_ne (List.mem_append_right front member)
          have boundsN := tidy.node_bounds listed
          have apart := tidy.node_apart listed (by simp) different
          have below := below_last tidy last listed
          omega
        have readable' : ∀ n ∈ back, k.accessible sys n 8 = true ∧
            k.accessible sys (n + 8) 8 = true := by
          intro n member
          have beforeN := before n member
          exact ⟨accessible_inside (by omega) (by omega) high',
            accessible_inside (by omega) (by omega) high'⟩
        have inside' : ∀ n ∈ back, add n (k.word n) ≠ k.blockEnd := by
          intro n member
          have beforeN := before n member
          rw [stop, sizes n member, add_of_lt (by omega)]
          omega
        have chain := relinked.back_chain tidy.chain.next_chain
        rw [word_next]
        exact (trimLoop_idle readable' inside' chain).imp_right fun out => ⟨by omega, out.2⟩

/-! ### `kufree` -/

/-- The one path of `kufree` that runs, by where the block is and which of its
neighbours are free. -/
def freePlan (sys : System) (h : Heap) (free : List Nat) (block total : Nat) :
    Except Fault Heap :=
  if h.blockEnd = block + total then
    match h.leftOf free block with
    | none => .ok (lowerEnd sys h block total)
    | some left => trimPlan sys (lowerEnd sys h block total) left (h.word left)
  else mergePlan sys h free block total

theorem freed_lowered (tidy : Tidy sys h (b :: live) free) (last : h.blockEnd = b.addr + b.total) :
    Lowered sys h (lowerEnd sys h b.addr b.total) b.addr := by
  have bounds := tidy.block_bounds (b := b) (by simp)
  have high := tidy.ledger.high
  have limit := sys.limit_lt
  exact lower_lowered (by omega) (by omega) high

/-- `kufree` of a block with its header: the last one is given back, any other
is put on the list that the trim leaves. -/
theorem kufree_eq (read : h.accessible sys block 8 = true) (size : h.word block = total)
    (stop : block + total < 2 ^ 64) : kufree sys rounds h (block + 8) =
      if h.blockEnd = block + total then
        trimLoop sys rounds (lowerEnd sys h block total) (lowerEnd sys h block total).head
      else trimLoop sys rounds h h.head >>= fun trimmed => addFree sys rounds trimmed block := by
  have bounds := accessible_bounds read
  have nonnull : ¬ block + 8 = 0 := by omega
  have reach : add block total = block + total := add_of_lt stop
  simp only [kufree, if_neg nonnull, sub_header bounds.2, getSize, load_ok read, size, ok_bind,
    freeLast, reach]
  by_cases last : h.blockEnd = block + total
  · simp only [if_pos last]
    cases trimLoop sys rounds (lowerEnd sys h block total) (lowerEnd sys h block total).head <;> rfl
  · simp only [if_neg last]

/-- Of a block that is not the last one nothing is trimmed. -/
theorem kufree_settles_inside (seen : Surveyed sys h block total free) (list : h.FreeList free)
    (notLast : h.blockEnd ≠ block + total) (inside : ∀ n ∈ free, n + h.word n ≠ h.blockEnd) :
    Settles .spent free.length rounds (kufree sys rounds h (block + 8))
      (mergePlan sys h free block total) := by
  rw [kufree_eq seen.header seen.size seen.stop, if_neg notLast]
  have idle : Settles .spent free.length rounds (trimLoop sys rounds h h.head) (.ok h) :=
    trimLoop_idle seen.readable
      (fun n member => by rw [add_of_lt (seen.ends n member)]; exact inside n member) list
  exact Settles.bind idle (addFree_settles seen list)

theorem kufree_settles (tidy : Tidy sys h (b :: live) free)
    (trims : h.blockEnd = b.addr + b.total → TrimsCleanly h free b.addr) :
    Settles .spent free.length rounds (kufree sys rounds h b.ptr)
      (freePlan sys h free b.addr b.total) := by
  have bounds := tidy.block_bounds (b := b) (by simp)
  have high := tidy.ledger.high
  have limit := sys.limit_lt
  have base := sys.base_above
  by_cases last : h.blockEnd = b.addr + b.total
  · have header := tidy.header_accessible (b := b) (by simp)
    rw [Block.ptr, kufree_eq header (tidy.headers b (by simp)) (by omega), if_pos last, freePlan,
      if_pos last]
    have lowered := freed_lowered tidy last
    generalize lowerEnd sys h b.addr b.total = g at lowered ⊢
    cases left : h.leftOf free b.addr with
    | none => exact trimLoop_none tidy last lowered left
    | some t =>
      obtain ⟨listed, ends⟩ := leftOf_some left
      have linked := trims last t left
      obtain ⟨front, back, rfl⟩ := List.append_of_mem listed
      exact trimLoop_hit tidy last linked lowered ends
  · rw [freePlan, if_neg last]
    refine kufree_settles_inside tidy.surveyed tidy.chain last fun n member => ?_
    have boundsN := tidy.node_bounds member
    omega

/-- A heap is in order again after its end was moved down. -/
theorem Tidy.lowered (tidy : Tidy sys h (b :: live) free) (ledger : Ledger sys k)
    (used : k.blockEnd ≠ 0) (brk : k.brk ≤ h.brk) (list : k.FreeList free')
    (listed : ∀ n ∈ free', n ∈ free ∧ k.word n = h.word n)
    (space : Space sys.base k.blockEnd (live.map Block.extent) (free'.map h.extentAt))
    (untouched : Untouched live h k) : Tidy sys k live free' := by
  have extents : free'.map k.extentAt = free'.map h.extentAt :=
    List.map_congr_left fun n member => congrArg (Extent.mk n) (listed n member).2
  refine ⟨list, fun c member => ?_, ?_, fun e member => ?_, fun c member => ?_, ledger,
    fun unused => absurd unused used, Nat.lt_of_le_of_lt brk tidy.bounded⟩
  · rw [untouched.word member (by have := tidy.block_bounds (b := c) (by simp [member]); omega)]
    exact tidy.headers c (by simp [member])
  · rw [extents, top, if_neg used]
    exact space
  · rw [extents] at member
    cases List.mem_append.mp member with
    | inl inUse => exact tidy.grain e (List.mem_append_left _ (List.mem_cons_of_mem _ inUse))
    | inr inFree =>
      obtain ⟨n, inList, rfl⟩ := List.mem_map.mp inFree
      exact tidy.grain _ (List.mem_append_right _ (List.mem_map_of_mem (listed n inList).1))
  · exact tidy.room c (by simp [member])

/-- Freeing the last block with no free one before it. -/
theorem lowered_tidy (tidy : Tidy sys h (b :: live) free) (last : h.blockEnd = b.addr + b.total)
    (noLeft : h.leftOf free b.addr = none) (lowered : Lowered sys h k b.addr)
    (ledger : Ledger sys k) (brk : k.brk ≤ h.brk) :
    Tidy sys k live free ∧ Untouched live h k := by
  have bounds := tidy.block_bounds (b := b) (by simp)
  have base := sys.base_above
  have untouched : Untouched live h k := (Untouched.refl live h).of_mem lowered.mem
  have top : b.extent.stop = h.top sys := by
    rw [Heap.top, if_neg (by omega), last]
    rfl
  refine ⟨tidy.lowered ledger (by rw [lowered.blockEnd]; omega) brk ?_
    (fun n member => ⟨member, lowered.word n⟩) ?_ untouched, untouched⟩
  · rw [FreeList, lowered.head]
    exact chain_congr (fun n _ => lowered.word _) tidy.chain
  · rw [lowered.blockEnd]
    refine tidy.space.release_top top fun f member => ?_
    obtain ⟨n, inList, rfl⟩ := List.mem_map.mp member
    exact leftOf_none noLeft inList

/-- Freeing the last block and the free one before it. -/
theorem trimmed_tidy (tidy : Tidy sys h (b :: live) (front ++ t :: back))
    (last : h.blockEnd = b.addr + b.total) (ends : t + h.word t = b.addr)
    (relinked : Relinked h k front back t (h.word (t + 8))) (blockEnd : k.blockEnd = t)
    (untouched : Untouched live h k) (ledger : Ledger sys k) (brk : k.brk ≤ h.brk) :
    Tidy sys k live (front ++ back) := by
  have bounds := tidy.node_bounds (n := t) (by simp)
  have base := sys.base_above
  refine tidy.lowered ledger (by omega) brk ?_ (fun n member =>
    ⟨(tidy.other_ne member).1, relinked.sizes n member⟩) ?_ untouched
  · have next : h.nextAt t = h.word (t + 8) := rfl
    exact relinked.freeList tidy.chain (relinked.back_chain (next ▸ tidy.chain.next_chain))
  · have middle := tidy.space.perm (List.Perm.refl _) (extents_middle h front back t)
    have shape : b.extent = ⟨t + h.word t, b.total⟩ := by rw [ends]; rfl
    rw [List.map_cons, shape] at middle
    rw [blockEnd]
    refine middle.release_top_left ?_
    rw [Heap.top, if_neg (by omega), last, ends]

/-- The path of a clean `kufree` keeps the heap in order. -/
theorem freePlan_tidy (tidy : Tidy sys h (b :: live) free)
    (clean : FreesCleanly h free b.addr b.total)
    (ran : freePlan sys h free b.addr b.total = .ok k) (quiet : k.sbrkFailures = h.sbrkFailures) :
    ∃ free', Tidy sys k live free' ∧ Untouched live h k := by
  have bounds := tidy.block_bounds (b := b) (by simp)
  have high := tidy.ledger.high
  have limit := sys.limit_lt
  have base := sys.base_above
  unfold freePlan at ran
  by_cases last : h.blockEnd = b.addr + b.total
  · simp only [if_pos last] at ran
    have lowered := freed_lowered tidy last
    have small : b.total < 2 ^ 63 := by omega
    have reaches : h.blockEnd = add b.addr b.total := by rw [add_of_lt (by omega), last]
    have keeps : Keeps sys h (lowerEnd sys h b.addr b.total) :=
      lower_keeps reaches (by omega) (by omega) (by omega)
    have brk := lower_brk sys h b.addr small
    generalize lowerEnd sys h b.addr b.total = g at ran lowered keeps brk
    cases left : h.leftOf free b.addr with
    | none =>
      rw [left] at ran
      cases ran
      obtain ⟨ledger, -⟩ := keeps.2 quiet tidy.ledger (by omega)
      exact ⟨free, lowered_tidy tidy last left lowered ledger (by omega)⟩
    | some t =>
      rw [left] at ran
      obtain ⟨trimmed, given, rest⟩ := bind_eq_ok.mp ran
      obtain ⟨next, -, same⟩ := bind_eq_ok.mp rest
      cases same
      obtain ⟨listed, ends⟩ := leftOf_some left
      have linked := clean.last last t left
      obtain ⟨front, back, rfl⟩ := List.append_of_mem listed
      have boundsT := tidy.node_bounds listed
      obtain ⟨relinked, untouched, same, -⟩ := giveBack_relinks tidy linked lowered ends given
      have small' : h.word t < 2 ^ 63 := by omega
      have reaches' : g.blockEnd = add t (h.word t) := by
        rw [add_of_lt (by omega), lowered.blockEnd, ends]
      have keeps' : Keeps sys g (lowerEnd sys g t (h.word t)) :=
        lower_keeps reaches' (by omega) (by omega) (word_lt h t)
      have brk' := lower_brk sys g t small'
      have low := lowered.low
      have lowered' : Lowered sys g (lowerEnd sys g t (h.word t)) t :=
        lower_lowered small' (by omega) lowered.high
      obtain ⟨ledger, -⟩ := (keeps.trans (keeps'.trans same.keeps)).2 quiet tidy.ledger (by omega)
      have others : Untouched live h k := fun c used => untouched c (List.mem_cons_of_mem _ used)
      refine ⟨front ++ back, trimmed_tidy tidy last ends relinked
        (same.blockEnd.trans lowered'.blockEnd) others ledger ?_, others⟩
      rw [same.brk]
      omega
  · rw [if_neg last] at ran
    obtain ⟨final, free', plan, -, tidy', untouched⟩ := mergePlan_tidy tidy last clean
    rw [plan] at ran
    cases ran
    exact ⟨free', tidy', untouched⟩

/-- A clean `kufree` of a live block keeps the heap in order and the other blocks
as they are. -/
theorem kufree_tidy (tidy : Tidy sys h live free) (member : b ∈ live)
    (clean : FreesCleanly h free b.addr b.total) (ran : kufree sys rounds h b.ptr = .ok k)
    (quiet : k.sbrkFailures = h.sbrkFailures) :
    ∃ free', Tidy sys k (live.filter fun c => c.ptr ≠ b.ptr) free' ∧
      Untouched (live.filter fun c => c.ptr ≠ b.ptr) h k := by
  have shifted := tidy.perm (tidy.live_perm member)
  exact freePlan_tidy shifted clean ((kufree_settles shifted clean.last).returned ran) quiet

end

end Comp304.Alloc
