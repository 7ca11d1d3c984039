import Comp304.Alloc.Clean

/-! A freed block that is not the last one goes on the list: alone, grown onto
its left neighbour, in the place of its right neighbour, or with both in one.
The loops only search; what they find decides which of four sequences of
pointer writes runs. -/
namespace Comp304.Alloc
open Library.Budget Library.ByteMemory Library.Lp64 Library.Extents Library.LinkedChain Heap

section
variable {sys : System} {h g k h' : Heap} {live : List Block} {free : List Nat} {b : Block}

/-! ### The searches -/

/-- A node that ends where the freed block begins, or begins where it ends. -/
def Touches (h : Heap) (block total node : Nat) : Prop :=
  node + h.sizeAt node = block ∨ block + total = node

instance (h : Heap) (block total node : Nat) : Decidable (Touches h block total node) :=
  inferInstanceAs (Decidable (_ ∨ _))

/-- What the searches read is mapped, and no block they look at ends beyond the
address space. -/
structure Surveyed (sys : System) (h : Heap) (block total : Nat) (nodes : List Nat) : Prop where
  readable : ∀ n ∈ nodes, h.accessible sys n 8 = true ∧ h.accessible sys (n + 8) 8 = true
  ends : ∀ n ∈ nodes, n + h.word n < 2 ^ 64
  header : h.accessible sys block 8 = true
  size : h.word block = total
  stop : block + total < 2 ^ 64

/-- A block and nodes below the end of the heap can be searched. -/
theorem Surveyed.below_end (limit : h.brk ≤ sys.limit) (high : h.blockEnd ≤ h.brk)
    (size : h.word block = total) (low : sys.base ≤ block) (wide : 8 ≤ total)
    (stop : block + total ≤ h.blockEnd)
    (within : ∀ n ∈ nodes, sys.base ≤ n ∧ n + h.word n ≤ h.blockEnd ∧ n + 16 ≤ h.blockEnd) :
    Surveyed sys h block total nodes := by
  have top := sys.limit_lt
  refine ⟨fun n listed => ?_, fun n listed => ?_, ?_, size, by omega⟩
  · have bounds := within n listed
    exact ⟨accessible_inside (by omega) (by omega) limit,
      accessible_inside (by omega) (by omega) limit⟩
  · have bounds := within n listed
    omega
  · exact accessible_inside (by omega) (by omega) limit

theorem Tidy.surveyed (tidy : Tidy sys h (b :: live) free) :
    Surveyed sys h b.addr b.total free := by
  have bounds := tidy.block_bounds (b := b) (by simp)
  refine .below_end tidy.ledger.high (by omega) (tidy.headers b (by simp)) (by omega) (by omega)
    (by omega) fun n listed => ?_
  have boundsN := tidy.node_bounds listed
  omega

/-- The merge loop stops at the first node that touches the freed block. -/
theorem mergeLoop_settles (seen : Surveyed sys h block total free) (within : ∀ n ∈ nodes, n ∈ free)
    (chain : Chain 0 h.nextAt temp nodes) :
    Settles .spent nodes.length rounds (mergeLoop sys scans h block rounds temp)
      (match nodes.find? fun n => Touches h block total n with
        | none => insertBlock sys h block
        | some n =>
          if n + h.sizeAt n = block then
            mergeLeft sys h block n (block + total) scans h.head
          else mergeRight sys h block n scans h.head) := by
  induction nodes generalizing rounds temp with
  | nil =>
    cases rounds with
    | zero => exact .out_of_rounds _
    | succ rounds => exact .of_eq (by simp [mergeLoop, chain_nil.mp chain])
  | cons node nodes ih =>
    obtain ⟨rfl, nonnull, rest⟩ := chain_cons.mp chain
    cases rounds with
    | zero => exact .out_of_rounds _
    | succ rounds =>
      have listed := within temp (by simp)
      obtain ⟨sizeRead, nextRead⟩ := seen.readable temp listed
      have end1 : add temp (h.word temp) = temp + h.word temp := add_of_lt (seen.ends temp listed)
      have end2 : add block total = block + total := add_of_lt seen.stop
      simp only [mergeLoop, if_neg nonnull, getSize, getNext, load_ok sizeRead, load_ok nextRead,
        load_ok seen.header, ok_bind, seen.size, end1, end2, List.find?_cons]
      by_cases left : temp + h.word temp = block
      · have touches : Touches h block total temp := Or.inl left
        have left' : temp + h.sizeAt temp = block := left
        simp only [if_pos left, decide_eq_true touches, if_pos left']
        exact .refl _
      · have left' : ¬ temp + h.sizeAt temp = block := left
        by_cases right : block + total = temp
        · have touches : Touches h block total temp := Or.inr right
          simp only [if_neg left, if_pos right, decide_eq_true touches, if_neg left']
          exact .refl _
        · have passed : ¬ Touches h block total temp := by
            rintro (touch | touch)
            · exact left touch
            · exact right touch
          simp only [if_neg left, if_neg right, decide_eq_false passed]
          exact (ih (fun n member => within n (by simp [member])) rest).succ

/-- After a left neighbour, the search is for the right one. -/
theorem mergeLeft_settles
    (readable : ∀ n ∈ nodes, h.accessible sys (n + 8) 8 = true) (nonempty : nodes ≠ [])
    (chain : Chain 0 h.nextAt temp2 nodes) :
    Settles .spent nodes.length rounds (mergeLeft sys h block temp end2 rounds temp2)
      (if end2 ∈ nodes then mergeThree sys h temp block end2 else mergeTwo sys h block temp) := by
  induction nodes generalizing rounds temp2 with
  | nil => exact absurd rfl nonempty
  | cons node nodes ih =>
    obtain ⟨rfl, _, rest⟩ := chain_cons.mp chain
    cases rounds with
    | zero => exact .out_of_rounds _
    | succ rounds =>
      simp only [mergeLeft, getNext, load_ok (readable temp2 (by simp)), ok_bind, List.mem_cons,
        eq_comm (a := end2)]
      by_cases here : temp2 = end2
      · subst here
        simp only [true_or, if_true]
        exact .refl _
      · simp only [here, false_or, if_false]
        cases nodes with
        | nil =>
          have last : h.word (temp2 + 8) = 0 := chain_nil.mp rest
          simp only [last, if_true, List.not_mem_nil, if_false]
          exact .refl _
        | cons second nodes =>
          have more : h.word (temp2 + 8) ≠ 0 := rest.start_ne_null (by simp)
          simp only [if_neg more]
          exact (ih (fun n member => readable n (by simp [member])) (by simp) rest).succ

/-- After a right neighbour, the search is for the left one. -/
theorem mergeRight_settles (seen : Surveyed sys h block total free) (within : ∀ n ∈ nodes, n ∈ free)
    (chain : Chain 0 h.nextAt temp2 nodes) :
    Settles .spent nodes.length rounds (mergeRight sys h block temp rounds temp2)
      (match h.leftOf nodes block with
        | none => replaceRight sys h block temp
        | some left => mergeThree sys h left block temp) := by
  induction nodes generalizing rounds temp2 with
  | nil =>
    cases rounds with
    | zero => exact .out_of_rounds _
    | succ rounds => exact .of_eq (by simp [mergeRight, chain_nil.mp chain, leftOf])
  | cons node nodes ih =>
    obtain ⟨rfl, nonnull, rest⟩ := chain_cons.mp chain
    cases rounds with
    | zero => exact .out_of_rounds _
    | succ rounds =>
      have listed := within temp2 (by simp)
      obtain ⟨sizeRead, nextRead⟩ := seen.readable temp2 listed
      have stop : add temp2 (h.word temp2) = temp2 + h.word temp2 := add_of_lt (seen.ends temp2 listed)
      simp only [mergeRight, if_neg nonnull, getSize, getNext, load_ok sizeRead, load_ok nextRead,
        ok_bind, stop, leftOf, List.find?_cons]
      by_cases left : temp2 + h.word temp2 = block
      · have left' : temp2 + h.sizeAt temp2 = block := left
        simp only [left, if_true, decide_eq_true left']
        exact .refl _
      · have left' : ¬ temp2 + h.sizeAt temp2 = block := left
        simp only [if_neg (Ne.symm left), decide_eq_false left']
        exact (ih (fun n member => within n (by simp [member])) rest).succ

theorem leftOf_some (found : h.leftOf free address = some left) :
    left ∈ free ∧ left + h.word left = address := by
  have test := List.find?_some found
  simp only [decide_eq_true_eq] at test
  exact ⟨List.mem_of_find?_eq_some found, test⟩

/-- The first node that touches the block, if it is on the left, is the first on
the left. -/
theorem leftOf_of_touches (found : (nodes.find? fun n => Touches h block total n) = some n)
    (left : n + h.sizeAt n = block) : h.leftOf nodes block = some n := by
  obtain ⟨-, front, back, rfl, passed⟩ := List.find?_eq_some_iff_append.mp found
  refine List.find?_eq_some_iff_append.mpr ⟨decide_eq_true left, front, back, rfl, fun m before => ?_⟩
  have apart := passed m before
  simp only [Bool.not_eq_true', decide_eq_false_iff_not] at apart ⊢
  exact fun touch => apart (Or.inl touch)

theorem leftOf_none (found : h.leftOf free address = none) (member : n ∈ free) :
    n + h.word n ≠ address := fun ends =>
  List.find?_eq_none.mp found n member (decide_eq_true ends)

/-- What happens to a freed block that is not the last one, by its neighbours.
Which neighbour the loops find first makes no difference. -/
def mergePlan (sys : System) (h : Heap) (free : List Nat) (block total : Nat) :
    Except Fault Heap :=
  if free = [] then do
    let h ← h.setNext sys block 0
    .ok (h.setHead block)
  else match h.leftOf free block, decide (block + total ∈ free) with
    | none, false => insertBlock sys h block
    | none, true => replaceRight sys h block (block + total)
    | some left, false => mergeTwo sys h block left
    | some left, true => mergeThree sys h left block (block + total)

/-- The plan by the node that the merge loop finds. -/
theorem mergePlan_searched (nonempty : free ≠ []) : mergePlan sys h free block total =
    match free.find? fun n => Touches h block total n with
    | none => insertBlock sys h block
    | some n =>
      if n + h.sizeAt n = block then
        if block + total ∈ free then mergeThree sys h n block (block + total)
        else mergeTwo sys h block n
      else
        match h.leftOf free block with
        | none => replaceRight sys h block n
        | some left => mergeThree sys h left block n := by
  simp only [mergePlan, if_neg nonempty]
  cases found : free.find? fun n => Touches h block total n with
  | none =>
    have untouched := List.find?_eq_none.mp found
    have noLeft : h.leftOf free block = none := List.find?_eq_none.mpr fun n member touch =>
      untouched n member (decide_eq_true (Or.inl (of_decide_eq_true touch)))
    have noRight : block + total ∉ free := fun member =>
      untouched _ member (decide_eq_true (Or.inr rfl))
    simp only [noLeft, decide_eq_false noRight]
  | some n =>
    have listed := List.mem_of_find?_eq_some found
    have touches : Touches h block total n := by simpa using List.find?_some found
    by_cases left : n + h.sizeAt n = block
    · simp only [if_pos left, leftOf_of_touches found left]
      by_cases right : block + total ∈ free
      · simp only [if_pos right, decide_eq_true right]
      · simp only [if_neg right, decide_eq_false right]
    · have right : block + total = n := touches.resolve_left left
      simp only [if_neg left, right, decide_eq_true listed]
      cases h.leftOf free block <;> rfl

theorem addFree_settles (seen : Surveyed sys h block total free) (list : h.FreeList free) :
    Settles .spent free.length rounds (addFree sys rounds h block) (mergePlan sys h free block total) := by
  by_cases empty : free = []
  · subst empty
    have headless : h.head = 0 := chain_nil.mp list
    simp only [addFree, if_pos headless, mergePlan, if_true]
    exact .refl _
  · have some_head : h.head ≠ 0 := Chain.start_ne_null list empty
    simp only [addFree, if_neg some_head, mergePlan_searched empty]
    refine (mergeLoop_settles seen (fun _ => id) list).trans ?_
    cases free.find? fun n => Touches h block total n with
    | none => exact .refl _
    | some n =>
      by_cases left : n + h.sizeAt n = block
      · simp only [if_pos left]
        exact mergeLeft_settles (fun n member => (seen.readable n member).2) empty list
      · simp only [if_neg left]
        exact mergeRight_settles seen (fun _ => id) list

/-! ### The pointer writes -/

/-- What the stores of a merge can do: nothing, or one store each. -/
theorem takeNext_cases (ran : takeNext sys g keep drop = .ok k) :
    k = g ∨ k = g.put (keep + 8) (g.word (drop + 8)) := by
  simp only [takeNext, getNext, bind_eq_ok, load_eq_ok, and_assoc, exists_and_left,
    exists_eq_left] at ran
  obtain ⟨-, ran⟩ := ran
  split at ran
  · exact Or.inr (store_eq_ok.mp ran).2
  · exact Or.inl (Except.ok.inj ran).symm

theorem takePrev_cases (ran : takePrev sys g keep drop = .ok k) :
    k = g ∨ g.word (drop + 8) ≠ 0 ∧ k = g.put (g.word (drop + 8) + 16) keep := by
  simp only [takePrev, getNext, bind_eq_ok, load_eq_ok, and_assoc, exists_and_left,
    exists_eq_left] at ran
  obtain ⟨-, ran⟩ := ran
  split at ran
  · next more => exact Or.inr ⟨more, (store_eq_ok.mp ran).2⟩
  · exact Or.inl (Except.ok.inj ran).symm

theorem takePlace_cases (ran : takePlace sys g keep drop = .ok k) :
    drop = g.head ∧ k = g.setHead keep ∨ drop ≠ g.head ∧ k = g.put (g.word (drop + 16) + 8) keep := by
  unfold takePlace at ran
  split at ran
  · next other =>
    simp only [getPrev, bind_eq_ok, load_eq_ok, and_assoc, exists_and_left, exists_eq_left] at ran
    exact Or.inr ⟨other, (store_eq_ok.mp ran.2).2⟩
  · next first => exact Or.inl ⟨Decidable.not_not.mp first, (Except.ok.inj ran).symm⟩

theorem cutSelfLoop_cases (ran : cutSelfLoop sys g = .ok k) :
    k = g ∨ k = g.put (g.head + 8) 0 := by
  simp only [cutSelfLoop, getNext, bind_eq_ok, load_eq_ok, and_assoc, exists_and_left,
    exists_eq_left] at ran
  obtain ⟨-, ran⟩ := ran
  split at ran
  · exact Or.inr (store_eq_ok.mp ran).2
  · exact Or.inl (Except.ok.inj ran).symm

/-- What is recorded for merged blocks is the sum of their sizes exactly when
that is an `int`. -/
theorem mergedSize_iff {first second : Nat} (small : first + second < 2 ^ 64 - 2 ^ 31) :
    mergedSize first second = first + second ↔ first + second < 2 ^ 31 := by
  rw [mergedSize, addInt_toInt]
  exact toSize_toInt_iff small

theorem mergedSize3_iff {first second third : Nat}
    (small : first + second + third < 2 ^ 64 - 2 ^ 31) :
    mergedSize3 first second third = first + second + third ↔ first + second + third < 2 ^ 31 := by
  rw [mergedSize3, addInt_toInt, addInt_toInt]
  exact toSize_toInt_iff small

theorem mergedSize_exact {first second : Nat} (small : first + second < 2 ^ 31) :
    mergedSize first second = first + second := (mergedSize_iff (by omega)).mpr small

theorem mergedSize3_exact {first second third : Nat} (small : first + second + third < 2 ^ 31) :
    mergedSize3 first second third = first + second + third := (mergedSize3_iff (by omega)).mpr small

/-- A store inside a list node is clear of the live blocks. -/
theorem Untouched.put_node (same : Untouched live h k) (tidy : Tidy sys h (b :: live) free)
    (member : n ∈ free) (low : n ≤ a) (high : a + 8 ≤ n + h.word n) :
    Untouched live h (k.put a v) :=
  same.put fun _ used => (tidy.block_apart_node (List.mem_cons_of_mem _ used) member).imp
    (by omega) (by omega)

/-- The freed block is free: one extent is new on the list, alone or grown over
neighbours, and the others were there before. -/
theorem Tidy.regroup (tidy : Tidy sys h (b :: live) free) (same : SameBreak h k)
    (list : k.FreeList free')
    (space : Space sys.base (h.top sys) (live.map Block.extent) (⟨a, s⟩ :: rest))
    (listed : (free'.map k.extentAt).Perm (⟨a, s⟩ :: rest))
    (known : ∀ e ∈ rest, e ∈ free.map h.extentAt) (grain : a % 8 = 0 ∧ s % 8 = 0 ∧ 16 ≤ s)
    (untouched : Untouched live h k) : Tidy sys k live free' := by
  refine tidy.restock same list space listed (fun c used => ?_) (fun e member => ?_)
    (fun c used => tidy.room c (by simp [used]))
  · rw [untouched.word used (by have := tidy.block_bounds (b := c) (by simp [used]); omega)]
    exact tidy.headers c (by simp [used])
  · simp only [List.mem_append, List.mem_cons] at member
    rcases member with used | rfl | other
    · exact tidy.grain e (List.mem_append_left _ (List.mem_cons_of_mem _ used))
    · exact grain
    · exact tidy.grain e (List.mem_append_right _ (known e other))

/-- The freed block is on the list, and the others are as they were. -/
theorem push_tidy (tidy : Tidy sys h (b :: live) free) (notLast : h.blockEnd ≠ b.addr + b.total)
    (noLeft : h.leftOf free b.addr = none) (noRight : b.addr + b.total ∉ free)
    (same : SameBreak h k) (list : k.FreeList (b.addr :: free))
    (sizes : ∀ n ∈ b.addr :: free, k.word n = h.word n)
    (untouched : Untouched live h k) : Tidy sys k live (b.addr :: free) := by
  have bounds := tidy.block_bounds (b := b) (by simp)
  have base := sys.base_above
  have header : k.word b.addr = b.total := (sizes b.addr (by simp)).trans (tidy.headers b (by simp))
  have extents : free.map k.extentAt = free.map h.extentAt :=
    List.map_congr_left fun n member => congrArg (Extent.mk n) (sizes n (by simp [member]))
  have top : h.top sys = h.blockEnd := if_neg (by omega)
  have space := tidy.space.release_alone
    (fun f member => by
      obtain ⟨n, listed, rfl⟩ := List.mem_map.mp member
      exact leftOf_none noLeft listed)
    (fun f member => by
      obtain ⟨n, listed, rfl⟩ := List.mem_map.mp member
      exact fun start => noRight (show b.addr + b.total ∈ free from
        (show b.addr + b.total = n from start) ▸ listed))
    (by rw [top]; exact Ne.symm notLast)
  have listed : ((b.addr :: free).map k.extentAt).Perm (b.extent :: free.map h.extentAt) := by
    have first : k.extentAt b.addr = b.extent := congrArg (Extent.mk b.addr) header
    rw [List.map_cons, extents, first]
  exact tidy.regroup same list space listed (fun _ => id) (by omega) untouched

/-- No free neighbour: the block is put in front of the list. Its `next` is written, and
the `prev` of the node that was the head. -/
theorem mergePlan_pushes (list : h.FreeList free) (noLeft : h.leftOf free block = none)
    (noRight : block + total ∉ free) (apart : ∀ n ∈ free, n + 16 ≤ block ∨ block + 16 ≤ n)
    (fields : ∀ first ∈ free.head?, (first + 24 ≤ block ∨ block ≤ first) ∧
      ∀ n ∈ free, n = first ∨ n ≤ first ∨ first + 24 ≤ n)
    (linkWrite : h.accessible sys (block + 8) 8 = true)
    (prevWrite : ∀ first ∈ free.head?, h.accessible sys (first + 16) 8 = true) :
    ∃ k, mergePlan sys h free block total = .ok k ∧ SameBreak h k ∧ k.FreeList (block :: free) ∧
      (∀ n ∈ block :: free, k.word n = h.word n) ∧
      ∀ x, (x < block + 8 ∨ block + 16 ≤ x) →
        (∀ first ∈ free.head?, x < first + 16 ∨ first + 24 ≤ x) → k.mem x = h.mem x := by
  have low := (accessible_bounds linkWrite).1
  suffices pushed : ∃ k, mergePlan sys h free block total = .ok k ∧ SameBreak h k ∧
      k.head = block ∧ k.word (block + 8) = h.head ∧
      ∀ x, (x < block + 8 ∨ block + 16 ≤ x) →
        (∀ first ∈ free.head?, x < first + 16 ∨ first + 24 ≤ x) → k.mem x = h.mem x by
    obtain ⟨k, ran, same, head, link, frame⟩ := pushed
    have kept : ∀ a, (a + 8 ≤ block + 8 ∨ block + 16 ≤ a) →
        (∀ first ∈ free.head?, a + 8 ≤ first + 16 ∨ first + 24 ≤ a) → k.word a = h.word a := by
      intro a clear clear'
      refine word_congr fun x low high => frame x (by omega) fun first front => ?_
      have apartF := clear' first front
      omega
    refine ⟨k, ran, same, chain_cons.mpr ⟨head, by omega, ?_⟩, fun n member => ?_, frame⟩
    · have next : k.nextAt block = h.head := link
      rw [next]
      refine chain_congr (fun n member => kept (n + 8) ?_ fun first front => ?_) list
      · have apartN := apart n member
        omega
      · have apartF := (fields first front).2 n member
        omega
    · cases List.mem_cons.mp member with
      | inl new =>
        refine kept n (by omega) fun first front => ?_
        have apartF := (fields first front).1
        omega
      | inr old =>
        have apartN := apart n old
        refine kept n (by omega) fun first front => ?_
        have apartF := (fields first front).2 n old
        omega
  cases free with
  | nil =>
    have headless : h.head = 0 := chain_nil.mp list
    refine ⟨(h.put (block + 8) 0).setHead block, ?_, ⟨rfl, rfl, rfl, rfl⟩, rfl, ?_, ?_⟩
    · simp only [mergePlan, if_true, setNext, store_ok linkWrite, ok_bind]
    · rw [setHead_word, word_put_same (by omega), headless]
    · exact fun x outside _ => mem_put_outside (by omega)
  | cons first rest =>
    have head : h.head = first := list.head_eq
    have prevWrite' : (h.put (block + 8) first).accessible sys (first + 16) 8 = true :=
      prevWrite first rfl
    have high := (accessible_bounds (prevWrite first rfl)).2
    have apartF := (fields first rfl).1
    refine ⟨((h.put (block + 8) first).put (first + 16) block).setHead block, ?_,
      ⟨rfl, rfl, rfl, rfl⟩, rfl, ?_, ?_⟩
    · have nonempty : ¬ first :: rest = [] := by simp
      simp only [mergePlan, if_neg nonempty, noLeft, decide_eq_false noRight, insertBlock, setNext,
        setPrev, head, put_head, store_ok linkWrite, store_ok prevWrite', ok_bind]
    · rw [setHead_word, word_put_apart (by omega), word_put_same (by omega), head]
    · intro x outside clear
      have apartX := clear first rfl
      exact (mem_put_outside (by omega)).trans (mem_put_outside (by omega))

/-- In a heap in order that keeps the order, if the head has room for its `prev`. -/
theorem mergePlan_alone (tidy : Tidy sys h (b :: live) free)
    (notLast : h.blockEnd ≠ b.addr + b.total) (noLeft : h.leftOf free b.addr = none)
    (noRight : b.addr + b.total ∉ free) (roomy : ∀ first ∈ free.head?, 24 ≤ h.sizeAt first) :
    ∃ k, mergePlan sys h free b.addr b.total = .ok k ∧ SameBreak h k ∧
      Tidy sys k live (b.addr :: free) ∧ Untouched live h k := by
  have bounds := tidy.block_bounds (b := b) (by simp)
  have high := tidy.ledger.high
  have first : ∀ n ∈ free.head?, n ∈ free ∧ 24 ≤ h.word n := fun n front =>
    ⟨List.mem_of_mem_head? front, roomy n front⟩
  have apart : ∀ n ∈ free, n + h.word n ≤ b.addr ∨ b.addr + 16 ≤ n := fun n listed => by
    have := tidy.block_apart_node (b := b) (by simp) listed
    omega
  obtain ⟨k, ran, same, list, sizes, frame⟩ := mergePlan_pushes tidy.chain noLeft
    noRight (fun n listed => by
      have sizes := tidy.node_bounds listed
      have := apart n listed
      omega)
    (fun n front => by
      obtain ⟨listed, wide⟩ := first n front
      have := apart n listed
      refine ⟨by omega, fun m listed' => ?_⟩
      by_cases same : m = n
      · exact Or.inl same
      · have := tidy.fields_apart listed' listed same
        omega)
    (accessible_inside (by omega) (by omega) high)
    (fun n front => tidy.prev_accessible (first n front).1)
  have untouched : Untouched live h k := by
    intro c used x inside
    have apartB := tidy.block_apart_block used
    simp only [Extent.Holds, Block.extent, Extent.stop] at inside
    refine frame x (by omega) fun n front => ?_
    obtain ⟨listed, wide⟩ := first n front
    have apartC := tidy.block_apart_node (List.mem_cons_of_mem _ used) listed
    omega
  exact ⟨k, ran, same, push_tidy tidy notLast noLeft noRight same list sizes untouched, untouched⟩

/-- A free block on the left: it grows. -/
theorem mergePlan_left (tidy : Tidy sys h (b :: live) free)
    (notLast : h.blockEnd ≠ b.addr + b.total) (left : h.leftOf free b.addr = some l)
    (noRight : b.addr + b.total ∉ free) :
    ∃ k, mergePlan sys h free b.addr b.total = .ok k ∧ SameBreak h k ∧
      Tidy sys k live free ∧ Untouched live h k := by
  have bounds := tidy.block_bounds (b := b) (by simp)
  have high := tidy.ledger.high
  have bounded := tidy.bounded
  have limit := sys.limit_lt
  have header := tidy.headers b (by simp)
  obtain ⟨listed, ends⟩ := leftOf_some left
  obtain ⟨front, back, rfl⟩ := List.append_of_mem listed
  have boundsL := tidy.node_bounds listed
  obtain ⟨sizeAccess, -⟩ := tidy.node_accessible listed
  have headerRead := tidy.header_accessible (b := b) (by simp)
  have size : mergedSize b.total (h.word l) = b.total + h.word l :=
    mergedSize_exact (by omega)
  have nonempty : ¬ front ++ l :: back = [] := by simp
  have others : ∀ n ∈ front ++ back, n + 32 ≤ l ∨ l + h.word l + 16 ≤ n :=
    fun n member => tidy.others_apart member
  have sizes : ∀ n ∈ front ++ back, (h.put l (b.total + h.word l)).word n = h.word n := by
    intro n member
    have apart := others n member
    exact word_put_apart (by omega)
  have links : ∀ n ∈ front ++ l :: back,
      (h.put l (b.total + h.word l)).word (n + 8) = h.word (n + 8) := by
    intro n member
    cases List.mem_cons.mp (List.perm_middle.mem_iff.mp member) with
    | inl same => exact word_put_apart (by omega)
    | inr other =>
      have apart := others n other
      exact word_put_apart (by omega)
  have untouched : Untouched live h (h.put l (b.total + h.word l)) :=
    (Untouched.refl live h).put_node tidy listed (by omega) (by omega)
  refine ⟨h.put l (b.total + h.word l), ?_, ⟨rfl, rfl, rfl, rfl⟩, ?_, untouched⟩
  · simp only [mergePlan, if_neg nonempty, left, decide_eq_false noRight, mergeTwo, getSize,
      setSize, load_ok headerRead, load_ok sizeAccess, store_ok sizeAccess, header, size, ok_bind]
  have top : h.top sys = h.blockEnd := if_neg (by omega)
  have middle := tidy.space.perm (List.Perm.refl _) (extents_middle h front back l)
  have shape : b.extent = ⟨l + h.word l, b.total⟩ := by rw [ends]; rfl
  rw [List.map_cons, shape] at middle
  have listed' : ((front ++ l :: back).map (h.put l (b.total + h.word l)).extentAt).Perm
      (⟨l, h.word l + b.total⟩ :: (front ++ back).map h.extentAt) := by
    refine (extents_middle _ front back l).trans ?_
    have same : (front ++ back).map (h.put l (b.total + h.word l)).extentAt =
        (front ++ back).map h.extentAt :=
      List.map_congr_left fun n member => congrArg (Extent.mk n) (sizes n member)
    rw [same, word_put_same (by omega), Nat.add_comm]
  refine tidy.regroup ⟨rfl, rfl, rfl, rfl⟩ (chain_congr links tidy.chain)
    (middle.release_left (fun f member => ?_) (by rw [top]; omega)) listed' (fun e member => ?_)
    (by omega) untouched
  · obtain ⟨n, inRest, rfl⟩ := List.mem_map.mp member
    intro start
    refine noRight (List.perm_middle.mem_iff.mpr (List.mem_cons_of_mem _ ?_))
    rw [← ends]
    exact (show l + h.word l + b.total = n from start) ▸ inRest
  · exact (extents_middle h front back l).mem_iff.mpr (List.mem_cons_of_mem _ member)

/-- A node that is the first or linked back can give its place away. -/
theorem takePlace_ok (chain : Chain 0 h.nextAt h.head (front ++ drop :: rest))
    (linked : h.LinkedBack (front ++ drop :: rest) drop) (head : g.head = h.head)
    (prev : g.word (drop + 16) = h.word (drop + 16))
    (prevRead : g.accessible sys (drop + 16) 8 = true)
    (linkWrite : ∀ n ∈ front, g.accessible sys (n + 8) 8 = true) (keep : Nat) :
    ∃ k, takePlace sys g keep drop = .ok k := by
  by_cases first : drop = h.head
  · exact ⟨g.setHead keep, by simp [takePlace, head, first]⟩
  · cases List.eq_nil_or_concat' front with
    | inl empty =>
      subst empty
      exact absurd (Chain.head_eq (show Chain 0 h.nextAt h.head (drop :: rest) from chain)).symm first
    | inr split =>
      obtain ⟨front, p, rfl⟩ := split
      have shape : (front ++ [p]) ++ drop :: rest = front ++ p :: drop :: rest := by simp
      rw [shape] at linked
      have follows : Follows (front ++ p :: drop :: rest) p drop :=
        follows_iff.mpr ⟨front, rest, rfl⟩
      have prevAt : g.word (drop + 16) = p := prev.trans (linked p (by simp) follows)
      refine ⟨g.put (p + 8) keep, ?_⟩
      simp only [takePlace, head, getPrev, setNext, load_ok prevRead, ok_bind, prevAt,
        store_ok (linkWrite p (by simp)), ne_eq, first, not_false_eq_true, if_true]

theorem takePlace_returns (tidy : Tidy sys h live (front ++ drop :: rest))
    (linked : h.LinkedBack (front ++ drop :: rest) drop) (brk : g.brk = h.brk)
    (head : g.head = h.head) (prev : g.word (drop + 16) = h.word (drop + 16)) (keep : Nat) :
    ∃ k, takePlace sys g keep drop = .ok k := by
  have high := tidy.ledger.high
  have access : ∀ n ∈ front ++ drop :: rest, ∀ a, n ≤ a → a ≤ n + 16 →
      g.accessible sys a 8 = true := by
    intro n member a low top
    have bounds := tidy.node_bounds member
    exact accessible_inside (by omega) (by omega) (by omega)
  refine takePlace_ok tidy.chain linked head prev (access drop (by simp) _ (by omega) (by omega))
    (fun n inFront => ?_) keep
  exact access n (List.mem_append_left _ inFront) _ (by omega) (by omega)

/-- It moves every link to it to the other node, and writes nothing else. -/
theorem takePlace_moves (chain : Chain 0 h.nextAt h.head (front ++ drop :: rest))
    (linked : h.LinkedBack (front ++ drop :: rest) drop) (behind : ∀ n ∈ back, n ∈ rest)
    (apart : ∀ n ∈ front ++ back, ∀ m ∈ front, n = m ∨ n + 16 ≤ m ∨ m + 16 ≤ n)
    (head : g.head = h.head) (prev : g.word (drop + 16) = h.word (drop + 16))
    (same : ∀ n ∈ front ++ back, g.word n = h.word n ∧ g.word (n + 8) = h.word (n + 8))
    (small : keep < 2 ^ 64) (ran : takePlace sys g keep drop = .ok k) :
    SameBreak g k ∧ Relinked h k front back drop keep ∧
      ∀ x, (∀ n ∈ front, x < n + 8 ∨ n + 16 ≤ x) → k.mem x = g.mem x := by
  cases List.eq_nil_or_concat' front with
  | inl empty =>
    subst empty
    have first : h.head = drop := Chain.head_eq (show Chain 0 h.nextAt h.head (drop :: rest) from
      chain)
    obtain ⟨-, rfl⟩ := (takePlace_cases ran).resolve_right fun later =>
      later.1 (head.trans first).symm
    refine ⟨⟨rfl, rfl, rfl, rfl⟩, ⟨?_, by simp, ?_, ?_⟩, fun _ _ => rfl⟩
    · simp [first]
    · exact fun n member => (same n (by simp [member])).2
    · exact fun n member => (same n member).1
  | inr split =>
    obtain ⟨front, p, rfl⟩ := split
    have shape : (front ++ [p]) ++ drop :: rest = front ++ p :: drop :: rest := by simp
    rw [shape] at chain linked
    have follows : Follows (front ++ p :: drop :: rest) p drop :=
      follows_iff.mpr ⟨front, rest, rfl⟩
    have prevAt : g.word (drop + 16) = p := prev.trans (linked p (by simp) follows)
    have notHead : drop ≠ h.head := Ne.symm chain.start_ne
    obtain ⟨-, rfl⟩ := (takePlace_cases ran).resolve_left fun first => notHead (first.1.trans head)
    rw [prevAt]
    have listed : ∀ n ∈ (front ++ [p]) ++ back, n ∈ front ++ p :: drop :: rest := by
      intro n member
      rw [← shape]
      cases List.mem_append.mp member with
      | inl inFront => exact List.mem_append_left _ inFront
      | inr inBack => exact List.mem_append_right _ (List.mem_cons_of_mem _ (behind n inBack))
    have distinct : p ∉ back := by
      have rotated := List.perm_middle.nodup_iff.mp chain.nodup
      exact fun inBack => (List.nodup_cons.mp rotated).1 (List.mem_append_right _
        (List.mem_cons_of_mem _ (behind p inBack)))
    refine ⟨⟨rfl, rfl, rfl, rfl⟩, ⟨?_, ?_, ?_, ?_⟩, ?_⟩
    · rw [if_neg (Ne.symm notHead), put_head, head]
    · intro n member
      have member' := List.mem_append_left back member
      have apartN := apart n member' p (by simp)
      by_cases last : n = p
      · rw [last, word_put_same small, if_pos (next_word chain)]
      · rw [word_put_apart (by omega), (same n member').2,
          if_neg (next_word_ne chain (listed n member') last)]
    · intro n member
      have member' := List.mem_append_right (front ++ [p]) member
      have apartN := (apart n member' p (by simp)).resolve_left fun same => distinct (same ▸ member)
      rw [word_put_apart (by omega), (same n member').2]
    · intro n member
      have apartN := apart n member p (by simp)
      rw [word_put_apart (by omega), (same n member).1]
    · intro x clear
      have apartX := clear p (by simp)
      exact mem_put_outside (by omega)

/-- In a heap in order no live block is written by that. -/
theorem takePlace_relinks (tidy : Tidy sys h live (front ++ drop :: rest))
    (linked : h.LinkedBack (front ++ drop :: rest) drop) (behind : ∀ n ∈ back, n ∈ rest)
    (head : g.head = h.head) (prev : g.word (drop + 16) = h.word (drop + 16))
    (same : ∀ n ∈ front ++ back, g.word n = h.word n ∧ g.word (n + 8) = h.word (n + 8))
    (small : keep < 2 ^ 64) (ran : takePlace sys g keep drop = .ok k) :
    SameBreak g k ∧ Relinked h k front back drop keep ∧ Untouched live g k ∧
      ∀ a, (∀ n ∈ front, a + 8 ≤ n ∨ n + 16 ≤ a) → k.word a = g.word a := by
  have listed : ∀ n ∈ front ++ back, n ∈ front ++ drop :: rest := by
    intro n member
    cases List.mem_append.mp member with
    | inl inFront => exact List.mem_append_left _ inFront
    | inr inBack => exact List.mem_append_right _ (List.mem_cons_of_mem _ (behind n inBack))
  have apart : ∀ n ∈ front ++ back, ∀ m ∈ front, n = m ∨ n + 16 ≤ m ∨ m + 16 ≤ n := by
    intro n member m inFront
    by_cases same : n = m
    · exact Or.inl same
    · have fields := tidy.fields_apart (listed n member) (List.mem_append_left _ inFront) same
      omega
  obtain ⟨unmoved, relinked, words⟩ :=
    takePlace_moves tidy.chain linked behind apart head prev same small ran
  refine ⟨unmoved, relinked, fun c used x inside => words x fun n inFront => ?_, fun a clear =>
    word_congr fun x low high => words x fun n inFront => ?_⟩
  · have listed : n ∈ front ++ drop :: rest := List.mem_append_left _ inFront
    have bounds := tidy.node_bounds listed
    have apartC := tidy.block_apart_node used listed
    simp only [Extent.Holds, Block.extent, Extent.stop] at inside
    omega
  · have apartA := clear n inFront
    omega

/-- The freed block with the fields it takes over from its right neighbour. -/
def takenOver (h : Heap) (block total right : Nat) : Heap :=
  ((h.put block (total + h.word right)).put (block + 8) (h.word (right + 8))).put (block + 16)
    (h.word (right + 16))

theorem takenOver_word (clear : a + 8 ≤ block ∨ block + 24 ≤ a) :
    (takenOver h block total right).word a = h.word a := by
  simp (disch := omega) only [takenOver, word_put_apart]

theorem takenOver_size (small : total + h.word right < 2 ^ 64) :
    (takenOver h block total right).word block = total + h.word right := by
  simp (disch := omega) only [takenOver, word_put_apart, word_put_same small]

theorem takenOver_next :
    (takenOver h block total right).word (block + 8) = h.word (right + 8) := by
  rw [takenOver, word_put_apart (by omega), word_put_same (word_lt h _)]

/-- Nothing else is near a freed block and the free one behind it. -/
theorem pair_clear (tidy : Tidy sys h (b :: live) (front ++ r :: back))
    (place : b.addr + b.total = r) :
    (∀ n ∈ front ++ back, n + 16 ≤ b.addr ∨ b.addr + 48 ≤ n) ∧
      ∀ c ∈ live, c.addr + c.total ≤ b.addr ∨ b.addr + 32 ≤ c.addr := by
  have bounds := tidy.block_bounds (b := b) (by simp)
  have boundsR := tidy.node_bounds (n := r) (by simp)
  constructor
  · intro n member
    have apartR := tidy.others_apart member
    have listed : n ∈ front ++ r :: back :=
      List.perm_middle.mem_iff.mpr (List.mem_cons_of_mem _ member)
    have apartB := tidy.block_apart_node (b := b) (by simp) listed
    have boundsN := tidy.node_bounds listed
    omega
  · intro c used
    have apartR := tidy.block_apart_node (b := c) (n := r) (by simp [used]) (by simp)
    have apartB := tidy.block_apart_block used
    have boundsC := tidy.block_bounds (b := c) (by simp [used])
    omega

theorem replaceRight_takes (wide : 16 ≤ total) (header : h.word block = total)
    (access : ∀ a, block ≤ a → a ≤ block + total + 16 → h.accessible sys a 8 = true)
    (small : total + h.word (block + total) < 2 ^ 31) :
    replaceRight sys h block (block + total) =
      takePlace sys (takenOver h block total (block + total)) block (block + total) := by
  have size : mergedSize total (h.word (block + total)) = total + h.word (block + total) :=
    mergedSize_exact small
  have next : ∀ v, (h.put block v).word (block + total + 8) = h.word (block + total + 8) :=
    fun v => word_put_apart (by omega)
  have prev : ∀ v w, ((h.put block v).put (block + 8) w).word (block + total + 16) =
      h.word (block + total + 16) :=
    fun v w => (word_put_apart (by omega)).trans (word_put_apart (by omega))
  simp only [replaceRight, getSize, getNext, getPrev, setSize, setNext, setPrev, load_ok, store_ok,
    put_accessible, access block (by omega) (by omega), access (block + 8) (by omega) (by omega),
    access (block + 16) (by omega) (by omega), access (block + total) (by omega) (by omega),
    access (block + total + 8) (by omega) (by omega),
    access (block + total + 16) (by omega) (by omega), header, size, next, prev, ok_bind, takenOver]

theorem replaceRight_eq (tidy : Tidy sys h (b :: live) free) (right : r ∈ free)
    (place : b.addr + b.total = r) :
    replaceRight sys h b.addr r = takePlace sys (takenOver h b.addr b.total r) b.addr r := by
  subst place
  have bounds := tidy.block_bounds (b := b) (by simp)
  have boundsR := tidy.node_bounds right
  have high := tidy.ledger.high
  have bounded := tidy.bounded
  exact replaceRight_takes (by omega) (tidy.headers b (by simp))
    (fun a low top => accessible_inside (by omega) (by omega) high) (by omega)

/-- The freed block with those fields takes the place of its right neighbour. -/
theorem takenOver_place (tidy : Tidy sys h (b :: live) (front ++ r :: back))
    (place : b.addr + b.total = r) (linked : h.LinkedBack (front ++ r :: back) r) :
    ∃ k, takePlace sys (takenOver h b.addr b.total r) b.addr r = .ok k ∧ SameBreak h k ∧
      Relinked h k front back r b.addr ∧ Untouched live h k ∧
      ∀ a, (∀ n ∈ front, a + 8 ≤ n ∨ n + 16 ≤ a) →
        k.word a = (takenOver h b.addr b.total r).word a := by
  have bounds := tidy.block_bounds (b := b) (by simp)
  have high := tidy.ledger.high
  have limit := sys.limit_lt
  obtain ⟨others, clear⟩ := pair_clear tidy place
  have word : ∀ a, a + 8 ≤ b.addr ∨ b.addr + 24 ≤ a →
      (takenOver h b.addr b.total r).word a = h.word a := fun _ => takenOver_word
  have untouched : Untouched live h (takenOver h b.addr b.total r) := by
    refine ((((Untouched.refl live h).put ?_).put ?_).put ?_) <;>
      exact fun c used => (clear c used).imp (by omega) (by omega)
  have unmoved : SameBreak h (takenOver h b.addr b.total r) := ⟨rfl, rfl, rfl, rfl⟩
  have head : (takenOver h b.addr b.total r).head = h.head := rfl
  generalize takenOver h b.addr b.total r = g at word untouched unmoved head
  have prev : g.word (r + 16) = h.word (r + 16) := word _ (by omega)
  have nodes : ∀ n ∈ front ++ back, g.word n = h.word n ∧ g.word (n + 8) = h.word (n + 8) := by
    intro n member
    have apart := others n member
    exact ⟨word _ (by omega), word _ (by omega)⟩
  obtain ⟨k, placed⟩ := takePlace_returns tidy linked unmoved.brk head prev b.addr
  obtain ⟨same, relinked, untouched', words⟩ := takePlace_relinks tidy linked (fun _ => id) head
    prev nodes (by omega) placed
  exact ⟨k, placed, unmoved.trans same, relinked,
    untouched.trans fun c used => untouched' c (List.mem_cons_of_mem _ used), words⟩

/-- A free block on the right: the freed block takes its place. -/
theorem mergePlan_right (tidy : Tidy sys h (b :: live) (front ++ r :: back))
    (left : h.leftOf (front ++ r :: back) b.addr = none) (place : b.addr + b.total = r)
    (linked : h.LinkedBack (front ++ r :: back) r) :
    ∃ k, mergePlan sys h (front ++ r :: back) b.addr b.total = .ok k ∧ SameBreak h k ∧
      Tidy sys k live (front ++ b.addr :: back) ∧ Untouched live h k := by
  have right : r ∈ front ++ r :: back := by simp
  have plan : mergePlan sys h (front ++ r :: back) b.addr b.total =
      takePlace sys (takenOver h b.addr b.total r) b.addr r := by
    have nonempty : front ++ r :: back ≠ [] := List.ne_nil_of_mem right
    simp only [mergePlan, if_neg nonempty, left, place, decide_eq_true right,
      replaceRight_eq tidy right place]
  have bounds := tidy.block_bounds (b := b) (by simp)
  have boundsR := tidy.node_bounds right
  have high := tidy.ledger.high
  have bounded := tidy.bounded
  have limit := sys.limit_lt
  obtain ⟨others, -⟩ := pair_clear tidy place
  obtain ⟨k, placed, same, relinked, untouched, words⟩ := takenOver_place tidy place linked
  have fields : ∀ a, b.addr ≤ a → a + 8 ≤ b.addr + 16 →
      k.word a = (takenOver h b.addr b.total r).word a := by
    intro a low top
    refine words a fun n member => ?_
    have apart := others n (List.mem_append_left _ member)
    omega
  have kSize : k.word b.addr = b.total + h.word r :=
    (fields _ (by omega) (by omega)).trans (takenOver_size (by omega))
  have kNext : k.nextAt b.addr = h.nextAt r := by
    rw [← word_next, ← word_next, fields _ (by omega) (by omega), takenOver_next]
  refine ⟨k, plan.trans placed, same, ?_, untouched⟩
  have base := sys.base_above
  have middle := tidy.space.perm (List.Perm.refl _) (extents_middle h front back r)
  have shape : b.extent = ⟨b.addr, b.total⟩ := rfl
  have behind : (⟨r, h.word r⟩ : Extent) = ⟨b.addr + b.total, h.word r⟩ := by rw [place]
  rw [List.map_cons, shape, behind] at middle
  have listed := relinked.extents b.addr
  rw [kSize] at listed
  refine tidy.regroup same (relinked.freeList tidy.chain ?_)
    (middle.release_right fun f member => ?_) listed (fun e member => ?_) (by omega) untouched
  · refine chain_cons.mpr ⟨rfl, by omega, ?_⟩
    rw [kNext]
    exact relinked.back_chain tidy.chain.next_chain
  · obtain ⟨n, inRest, rfl⟩ := List.mem_map.mp member
    exact leftOf_none left (List.perm_middle.mem_iff.mpr (List.mem_cons_of_mem _ inRest))
  · exact (extents_middle h front back r).mem_iff.mpr (List.mem_cons_of_mem _ member)

/-- A list that ends has no node that leads to itself. -/
theorem cutSelfLoop_idle (list : k.FreeList (node :: nodes))
    (access : k.accessible sys (node + 8) 8 = true) : cutSelfLoop sys k = .ok k := by
  have head : k.head = node := list.head_eq
  have other : node ≠ k.word (node + 8) := fun loop =>
    list.no_loop List.mem_cons_self (loop.symm : k.nextAt node = node)
  simp only [cutSelfLoop, head, getNext, load_ok access, ok_bind, if_neg other]

/-- The left neighbour, alone on the list with the right one after it, absorbs it. -/
theorem mergeThree_pair (tidy : Tidy sys h (b :: live) [l, r]) (ends : l + h.word l = b.addr)
    (place : b.addr + b.total = r) (linked : h.prevAt r = l) :
    ∃ k, mergeThree sys h l b.addr r = .ok k ∧ SameBreak h k ∧ k.FreeList [l] ∧
      k.word l = h.word l + b.total + h.word r ∧ Untouched live h k := by
  have bounds := tidy.block_bounds (b := b) (by simp)
  have boundsL := tidy.node_bounds (n := l) (by simp)
  have boundsR := tidy.node_bounds (n := r) (by simp)
  have high := tidy.ledger.high
  have bounded := tidy.bounded
  have limit := sys.limit_lt
  have base := sys.base_above
  have header := tidy.headers b (by simp)
  have headerRead := tidy.header_accessible (b := b) (by simp)
  obtain ⟨sizeL, nextL⟩ := tidy.node_accessible (n := l) (by simp)
  obtain ⟨sizeR, nextR⟩ := tidy.node_accessible (n := r) (by simp)
  have prevR := tidy.prev_accessible (n := r) (by simp)
  have head : h.head = l := tidy.chain.head_eq
  have other : r ≠ l := by omega
  have size : mergedSize3 (h.word l) b.total (h.word r) = h.word l + b.total + h.word r :=
    mergedSize3_exact (by omega)
  generalize total : h.word l + b.total + h.word r = whole at size
  have last : h.word (r + 8) = 0 :=
    last_word (show Chain 0 h.nextAt h.head ([l] ++ [r]) from tidy.chain)
  let h₁ := h.put l whole
  let h₂ := h₁.put (l + 8) 0
  let h₃ := h₂.put (l + 8) l
  let k := h₃.put (l + 8) 0
  have sized : h.setSize sys l whole = .ok h₁ := store_ok sizeL
  have next₁ : h₁.word (r + 8) = 0 := (word_put_apart (by omega)).trans last
  have next₂ : h₂.word (r + 8) = 0 := (word_put_apart (by omega)).trans next₁
  have prev₂ : h₂.word (r + 16) = l :=
    ((word_put_apart (by omega)).trans (word_put_apart (by omega))).trans linked
  have loop : h₃.word (l + 8) = l := word_put_same (by omega)
  have nullNotKept : (0 : Nat) ≠ l := by omega
  have first : takeNext sys h₁ l r = .ok h₂ := by
    simp only [takeNext, getNext, setNext, load_ok (show h₁.accessible sys (r + 8) 8 = true from nextR),
      next₁, ok_bind, if_pos nullNotKept, store_ok (show h₁.accessible sys (l + 8) 8 = true from nextL)]
    rfl
  have second : takePrev sys h₂ l r = .ok h₂ := by
    simp only [takePrev, getNext, load_ok (show h₂.accessible sys (r + 8) 8 = true from nextR),
      next₂, ok_bind, ne_eq, not_true_eq_false, if_false]
  have third : takePlace sys h₂ l r = .ok h₃ := by
    have notHead : r ≠ h₂.head := fun same => other (same.trans head)
    simp only [takePlace, if_pos notHead, getPrev, setNext,
      load_ok (show h₂.accessible sys (r + 16) 8 = true from prevR), prev₂, ok_bind,
      store_ok (show h₂.accessible sys (l + 8) 8 = true from nextL)]
    rfl
  have fourth : cutSelfLoop sys h₃ = .ok k := by
    have head₃ : h₃.head = l := head
    simp only [cutSelfLoop, head₃, getNext, setNext,
      load_ok (show h₃.accessible sys (l + 8) 8 = true from nextL), loop, ok_bind, if_true,
      store_ok (show h₃.accessible sys (l + 8) 8 = true from nextL)]
    rfl
  refine ⟨k, ?_, ⟨rfl, rfl, rfl, rfl⟩, chain_cons.mpr ⟨head, by omega, ?_⟩, ?_, ?_⟩
  · simp only [mergeThree, absorb, getSize, load_ok sizeL, load_ok headerRead, load_ok sizeR, header,
      size, sized, ok_bind, first, second, third, fourth]
  · exact chain_nil.mpr (word_put_same (by omega))
  · rw [word_put_apart (by omega), word_put_apart (by omega), word_put_apart (by omega),
      word_put_same (by omega)]
  · refine Untouched.put_node ?_ tidy (n := l) (by simp) (by omega) (by omega)
    refine Untouched.put_node ?_ tidy (n := l) (by simp) (by omega) (by omega)
    refine Untouched.put_node ?_ tidy (n := l) (by simp) (by omega) (by omega)
    exact (Untouched.refl live h).put_node tidy (n := l) (by simp) (by omega) (by omega)

/-- The left neighbour, right behind the right one on the list, after the writes
to its own fields: it becomes its own `prev`. -/
def widened (h : Heap) (left whole : Nat) : Heap := (h.put left whole).put (left + 16) left

theorem widened_word (clear : a + 8 ≤ left ∨ left + 8 ≤ a ∧ a + 8 ≤ left + 16 ∨ left + 24 ≤ a) :
    (widened h left whole).word a = h.word a := by
  simp (disch := omega) only [widened, word_put_apart]

theorem widened_size (small : whole < 2 ^ 64) : (widened h left whole).word left = whole := by
  rw [widened, word_put_apart (by omega), word_put_same small]

theorem mergeThree_eq (tidy : Tidy sys h (b :: live) (front ++ r :: l :: back))
    (ends : l + h.word l = b.addr) (place : b.addr + b.total = r) :
    mergeThree sys h l b.addr r =
      takePlace sys (widened h l (h.word l + b.total + h.word r)) l r >>= cutSelfLoop sys := by
  have bounds := tidy.block_bounds (b := b) (by simp)
  have boundsL := tidy.node_bounds (n := l) (by simp)
  have boundsR := tidy.node_bounds (n := r) (by simp)
  have high := tidy.ledger.high
  have bounded := tidy.bounded
  have base := sys.base_above
  have header := tidy.headers b (by simp)
  have headerRead := tidy.header_accessible (b := b) (by simp)
  obtain ⟨sizeL, nextL⟩ := tidy.node_accessible (n := l) (by simp)
  obtain ⟨sizeR, nextR⟩ := tidy.node_accessible (n := r) (by simp)
  have prevL := tidy.prev_accessible (n := l) (by simp)
  have size : mergedSize3 (h.word l) b.total (h.word r) = h.word l + b.total + h.word r :=
    mergedSize3_exact (by omega)
  have next : ∀ v, (h.put l v).word (r + 8) = l := fun v =>
    (word_put_apart (by omega)).trans (next_word tidy.chain)
  have nonnull : l ≠ 0 := by omega
  simp only [mergeThree, absorb, takeNext, takePrev, getSize, getNext, setSize, setPrev, load_ok,
    store_ok, put_accessible, sizeL, sizeR, nextR, prevL, headerRead, header, size, next, ok_bind,
    ne_eq, not_true_eq_false, if_false, nonnull, not_false_eq_true, if_true, widened]

/-- The left neighbour is apart from the other nodes. -/
theorem kept_apart (tidy : Tidy sys h live (front ++ r :: l :: back)) (member : n ∈ front ++ back) :
    n + 32 ≤ l ∨ l + 32 ≤ n := by
  have split : front ++ r :: l :: back = (front ++ [r]) ++ l :: back := by simp
  have member' : n ∈ (front ++ [r]) ++ back := by
    simp only [List.mem_append] at member ⊢
    exact member.imp_left Or.inl
  have bounds := tidy.node_bounds (n := l) (by simp)
  have apart := (split ▸ tidy).others_apart member'
  omega

/-- The left neighbour takes the place of the right one, right in front of it. -/
theorem widened_place (tidy : Tidy sys h (b :: live) (front ++ r :: l :: back))
    (ends : l + h.word l = b.addr) (place : b.addr + b.total = r)
    (linked : h.LinkedBack (front ++ r :: l :: back) r) (whole : Nat) :
    ∃ k, takePlace sys (widened h l whole) l r = .ok k ∧ SameBreak h k ∧
      Relinked h k front back r l ∧ Untouched live h k ∧
      ∀ a, (∀ n ∈ front, a + 8 ≤ n ∨ n + 16 ≤ a) → k.word a = (widened h l whole).word a := by
  have bounds := tidy.block_bounds (b := b) (by simp)
  have boundsL := tidy.node_bounds (n := l) (by simp)
  have boundsR := tidy.node_bounds (n := r) (by simp)
  have high := tidy.ledger.high
  have limit := sys.limit_lt
  have untouched : Untouched live h (widened h l whole) := by
    refine Untouched.put ?_ fun c used => ?_
    · exact (Untouched.refl live h).put_node tidy (n := l) (by simp) (by omega) (by omega)
    · have apartL := tidy.block_apart_node (b := c) (n := l) (by simp [used]) (by simp)
      have apartB := tidy.block_apart_block used
      have boundsC := tidy.block_bounds (b := c) (by simp [used])
      omega
  have word : ∀ a, a + 8 ≤ l ∨ l + 8 ≤ a ∧ a + 8 ≤ l + 16 ∨ l + 24 ≤ a →
      (widened h l whole).word a = h.word a := fun _ => widened_word
  have unmoved : SameBreak h (widened h l whole) := ⟨rfl, rfl, rfl, rfl⟩
  have head : (widened h l whole).head = h.head := rfl
  generalize widened h l whole = g at untouched word unmoved head
  have nodes : ∀ n ∈ front ++ back, g.word n = h.word n ∧ g.word (n + 8) = h.word (n + 8) := by
    intro n member
    have apart := kept_apart tidy member
    exact ⟨word _ (by omega), word _ (by omega)⟩
  have prev : g.word (r + 16) = h.word (r + 16) := word _ (by omega)
  obtain ⟨k, placed⟩ := takePlace_returns tidy linked unmoved.brk head prev l
  obtain ⟨same, relinked, untouched', words⟩ := takePlace_relinks tidy linked
    (fun n behind => List.mem_cons_of_mem l behind) head prev nodes (by omega) placed
  exact ⟨k, placed, unmoved.trans same, relinked,
    untouched.trans fun c used => untouched' c (List.mem_cons_of_mem _ used), words⟩

/-- The left neighbour, right behind the right one on the list, absorbs it. -/
theorem mergeThree_ordered (tidy : Tidy sys h (b :: live) (front ++ r :: l :: back))
    (ends : l + h.word l = b.addr) (place : b.addr + b.total = r)
    (linked : h.LinkedBack (front ++ r :: l :: back) r) :
    ∃ k, mergeThree sys h l b.addr r = .ok k ∧ SameBreak h k ∧ k.FreeList (front ++ l :: back) ∧
      k.word l = h.word l + b.total + h.word r ∧ (∀ n ∈ front ++ back, k.word n = h.word n) ∧
      Untouched live h k := by
  have bounds := tidy.block_bounds (b := b) (by simp)
  have boundsL := tidy.node_bounds (n := l) (by simp)
  have boundsR := tidy.node_bounds (n := r) (by simp)
  have high := tidy.ledger.high
  have bounded := tidy.bounded
  have limit := sys.limit_lt
  have base := sys.base_above
  have split : front ++ r :: l :: back = (front ++ [r]) ++ l :: back := by simp
  obtain ⟨k, placed, same, relinked, untouched, words⟩ :=
    widened_place tidy ends place linked (h.word l + b.total + h.word r)
  have fields : ∀ a, l ≤ a → a + 8 ≤ l + 16 →
      k.word a = (widened h l (h.word l + b.total + h.word r)).word a := by
    intro a low top
    refine words a fun n member => ?_
    have apart := kept_apart tidy (List.mem_append_left back member)
    omega
  have kNext : k.nextAt l = h.nextAt l := by
    rw [← word_next, ← word_next, fields _ (by omega) (by omega), widened_word (by omega)]
  have list : k.FreeList (front ++ l :: back) := by
    refine relinked.freeList tidy.chain (chain_cons.mpr ⟨rfl, by omega, ?_⟩)
    rw [kNext]
    exact relinked.back_chain (split ▸ tidy.chain).next_chain
  have uncut : cutSelfLoop sys k = .ok k := by
    have brk : k.brk = h.brk := same.brk
    cases front with
    | nil => exact cutSelfLoop_idle list (accessible_inside (by omega) (by omega) (by omega))
    | cons first front =>
      have boundsF := tidy.node_bounds (n := first) (by simp)
      exact cutSelfLoop_idle list (accessible_inside (by omega) (by omega) (by omega))
  refine ⟨k, ?_, same, list, (fields _ (by omega) (by omega)).trans (widened_size (by omega)),
    relinked.sizes, untouched⟩
  rw [mergeThree_eq tidy ends place, placed, ok_bind, uncut]

/-- Three blocks that became one are in order. -/
theorem joined_tidy (tidy : Tidy sys h (b :: live) free) (before : free.Perm (l :: r :: others))
    (after : free'.Perm (l :: others)) (ends : l + h.word l = b.addr)
    (place : b.addr + b.total = r) (same : SameBreak h k) (list : k.FreeList free')
    (size : k.word l = h.word l + b.total + h.word r) (sizes : ∀ n ∈ others, k.word n = h.word n)
    (untouched : Untouched live h k) : Tidy sys k live free' := by
  have bounds := tidy.block_bounds (b := b) (by simp)
  have boundsL := tidy.node_bounds (n := l) (before.mem_iff.mpr (by simp))
  have boundsR := tidy.node_bounds (n := r) (before.mem_iff.mpr (by simp))
  have space := tidy.space.perm (List.Perm.refl _) (before.map h.extentAt)
  have shape : b.extent = ⟨l + h.word l, b.total⟩ := by rw [ends]; rfl
  have shapeR : h.extentAt r = ⟨l + h.word l + b.total, h.word r⟩ := by rw [ends, place]; rfl
  have shapeL : h.extentAt l = ⟨l, h.word l⟩ := rfl
  simp only [List.map_cons, shape, shapeL, shapeR] at space
  have others' : others.map k.extentAt = others.map h.extentAt :=
    List.map_congr_left fun n member => congrArg (Extent.mk n) (sizes n member)
  have listed : (free'.map k.extentAt).Perm
      (⟨l, h.word l + b.total + h.word r⟩ :: others.map h.extentAt) := by
    have first : k.extentAt l = ⟨l, h.word l + b.total + h.word r⟩ := congrArg (Extent.mk l) size
    rw [← others', ← first]
    exact after.map _
  refine tidy.regroup same list space.release_both listed (fun e member => ?_) (by omega) untouched
  refine (before.map h.extentAt).mem_iff.mpr ?_
  exact List.mem_cons_of_mem _ (List.mem_cons_of_mem _ member)

/-- Free blocks on both sides: the left one grows over the freed block and the
right one. -/
theorem mergePlan_both (tidy : Tidy sys h (b :: live) free)
    (left : h.leftOf free b.addr = some l) (right : b.addr + b.total ∈ free)
    (joins : JoinsCleanly h free l (b.addr + b.total)) :
    ∃ k free', mergePlan sys h free b.addr b.total = .ok k ∧ SameBreak h k ∧
      Tidy sys k live free' ∧ Untouched live h k := by
  obtain ⟨listed, ends⟩ := leftOf_some left
  have nonempty : free ≠ [] := List.ne_nil_of_mem listed
  have plan : mergePlan sys h free b.addr b.total =
      mergeThree sys h l b.addr (b.addr + b.total) := by
    simp only [mergePlan, if_neg nonempty, left, decide_eq_true right]
  rw [plan]
  cases joins with
  | inl pair =>
    obtain ⟨shape, linked⟩ := pair
    subst shape
    obtain ⟨k, ran, same, list, size, untouched⟩ := mergeThree_pair tidy ends rfl linked
    exact ⟨k, [l], ran, same, joined_tidy tidy (List.Perm.refl _) (List.Perm.refl _) ends rfl same
      list size (by simp) untouched, untouched⟩
  | inr ordered =>
    obtain ⟨follows, linked⟩ := ordered
    obtain ⟨front, back, rfl⟩ := follows_iff.mp follows
    obtain ⟨k, ran, same, list, size, sizes, untouched⟩ := mergeThree_ordered tidy ends rfl linked
    refine ⟨k, front ++ l :: back, ran, same, ?_, untouched⟩
    exact joined_tidy tidy (List.perm_middle.trans ((List.perm_middle.cons _).trans
      (List.Perm.swap _ _ _))) List.perm_middle ends rfl same list size sizes untouched

/-- Every path of `kufree` for a block that is not the last one keeps the heap in
order when the call is clean. -/
theorem mergePlan_tidy (tidy : Tidy sys h (b :: live) free)
    (notLast : h.blockEnd ≠ b.addr + b.total) (clean : FreesCleanly h free b.addr b.total) :
    ∃ k free', mergePlan sys h free b.addr b.total = .ok k ∧ SameBreak h k ∧
      Tidy sys k live free' ∧ Untouched live h k := by
  by_cases right : b.addr + b.total ∈ free
  · cases left : h.leftOf free b.addr with
    | none =>
      have linked := clean.right notLast left right
      obtain ⟨front, back, rfl⟩ := List.append_of_mem right
      obtain ⟨k, ran, same, tidy', untouched⟩ := mergePlan_right tidy left rfl linked
      exact ⟨k, _, ran, same, tidy', untouched⟩
    | some l => exact mergePlan_both tidy left right (clean.both notLast l left right)
  · cases left : h.leftOf free b.addr with
    | none =>
      obtain ⟨k, ran, same, tidy', untouched⟩ :=
        mergePlan_alone tidy notLast left right (clean.alone notLast left right)
      exact ⟨k, _, ran, same, tidy', untouched⟩
    | some l =>
      obtain ⟨k, ran, same, tidy', untouched⟩ := mergePlan_left tidy notLast left right
      exact ⟨k, _, ran, same, tidy', untouched⟩

end

end Comp304.Alloc
