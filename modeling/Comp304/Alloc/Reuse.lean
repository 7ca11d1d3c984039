import Comp304.Alloc.Clean

/-! Allocation keeps the heap in order. A grown block is appended at the end of
the heap. A reused block is the first fit, and its remainder takes its place on
the list. -/
namespace Comp304.Alloc
open Library.Budget Library.ByteMemory Library.Lp64 Library.Extents Library.LinkedChain Heap

section
variable {sys : System} {h h' : Heap} {live : List Block} {free : List Nat}

/-! ### What the reuse path writes -/

@[simp] theorem setHead_accessible :
    (h.setHead n).accessible sys a w = h.accessible sys a w := rfl

/-- The heap after the three stores before the list is touched. -/
def stamp (h : Heap) (block total value : Nat) : Heap :=
  ((h.put (block + total + 8) 0).put (block + total) value).put block total

@[simp] theorem stamp_head : (stamp h block total value).head = h.head := rfl

@[simp] theorem stamp_accessible :
    (stamp h block total value).accessible sys a w = h.accessible sys a w := rfl

theorem stamp_word (one : a + 8 ≤ block ∨ block + 8 ≤ a)
    (two : a + 8 ≤ block + total ∨ block + total + 16 ≤ a) :
    (stamp h block total value).word a = h.word a := by
  simp (disch := omega) only [stamp, word_put_apart]

theorem reuseBlock_eq_ok (wide : 8 ≤ total) (high : block + total < 2 ^ 64) :
    reuseBlock sys rounds h block total = .ok h' ↔
      h.accessible sys (block + total + 8) 8 = true ∧ h.accessible sys block 8 = true ∧
      h.accessible sys (block + total) 8 = true ∧
      (if h.head = block then
        reuseHead sys (block + total) (subInt (toInt (h.word block)) (toInt total))
          (stamp h block total (toSize (subInt (toInt (h.word block)) (toInt total))))
      else unlinkBlock sys block (block + total) (subInt (toInt (h.word block)) (toInt total))
        (stamp h block total (toSize (subInt (toInt (h.word block)) (toInt total)))) rounds
          h.head) = .ok h' := by
  have size : (h.put (block + total + 8) 0).word block = h.word block := word_put_apart (by omega)
  simp only [reuseBlock, add_of_lt high, setNext, setSize, getSize, bind_eq_ok, store_eq_ok,
    load_eq_ok, and_assoc, exists_and_left, exists_eq_left, put_accessible, put_head, size]
  constructor
  · rintro ⟨one, two, three, -, ran⟩
    exact ⟨one, two, three, ran⟩
  · rintro ⟨one, two, three, ran⟩
    exact ⟨one, two, three, two, ran⟩

theorem stamp_next (wide : 16 ≤ total) :
    (stamp h block total value).word (block + 8) = h.word (block + 8) :=
  stamp_word (by omega) (by omega)

theorem stamp_header (small : total < 2 ^ 64) : (stamp h block total value).word block = total :=
  word_put_same small

theorem stamp_size (wide : 8 ≤ total) (small : value < 2 ^ 64) :
    (stamp h block total value).word (block + total) = value := by
  rw [stamp, word_put_apart (by omega), word_put_same small]

theorem reuseHead_eq_ok (first : g.head = block) (positive : 0 < diff) :
    reuseHead sys subseq diff g = .ok h' ↔
      g.accessible sys (block + 8) 8 = true ∧ g.accessible sys (subseq + 8) 8 = true ∧
      g.accessible sys (block + 16) 8 = true ∧ g.accessible sys (subseq + 16) 8 = true ∧
      h' = ((g.put (subseq + 8) (g.word (block + 8))).put (subseq + 16)
        ((g.put (subseq + 8) (g.word (block + 8))).word (block + 16))).setHead subseq := by
  simp only [reuseHead, gt_iff_lt, if_pos positive, first, getNext, getPrev, setNext, setPrev,
    bind_eq_ok, load_eq_ok, store_eq_ok, and_assoc, exists_and_left, exists_eq_left, put_accessible,
    put_head, Except.ok.injEq, eq_comm (a := h')]

theorem reuseHead_spent_eq_ok (first : g.head = block) (spent : ¬ 0 < diff) :
    reuseHead sys subseq diff g = .ok h' ↔ g.accessible sys (block + 8) 8 = true ∧
      (g.word (block + 8) = 0 ∧ h' = g.setHead 0 ∨
        g.word (block + 8) ≠ 0 ∧ g.accessible sys (g.word (block + 8) + 16) 8 = true ∧
          h' = (g.setHead (g.word (block + 8))).put (g.word (block + 8) + 16) 0) := by
  simp only [reuseHead, gt_iff_lt, if_neg spent, first, getNext, setPrev, bind_eq_ok, load_eq_ok,
    and_assoc, exists_and_left, exists_eq_left]
  refine and_congr_right fun _ => ?_
  change (if g.word (block + 8) ≠ 0 then
      (g.setHead (g.word (block + 8))).store sys (g.word (block + 8) + 16) 0
    else .ok (g.setHead (g.word (block + 8)))) = .ok h' ↔ _
  by_cases last : g.word (block + 8) = 0
  · simp [last, eq_comm (a := h')]
  · rw [if_pos last, store_eq_ok, setHead_accessible]
    constructor
    · exact fun ran => Or.inr ⟨last, ran⟩
    · exact fun cases => (cases.resolve_left fun none => last none.1).2

/-- Along a path the walk goes on, up to a node that leads to the block or to NULL. -/
theorem unlinkBlock_walks {start p : Nat} {front : List Nat} (path : Path g.nextAt start front p)
    (passed : ∀ n ∈ front, g.word (n + 8) ≠ 0 ∧ g.word (n + 8) ≠ block)
    (readable : ∀ n ∈ front ++ [p], g.accessible sys (n + 8) 8 = true)
    (ends : g.word (p + 8) = 0 ∨ g.word (p + 8) = block ∧ block ≠ 0) :
    Settles .spent front.length.succ rounds (unlinkBlock sys block subseq diff g rounds start)
      (if g.word (p + 8) = 0 then .ok g else unlinkNext sys subseq diff g p) := by
  induction front generalizing rounds start with
  | nil =>
    cases rounds with
    | zero => exact .out_of_rounds _
    | succ rounds =>
      obtain rfl : start = p := path
      refine .of_eq ?_
      simp only [unlinkBlock, getNext, load_ok (readable start (by simp)), ok_bind]
      rcases ends with null | ⟨leads, nonnull⟩
      · rw [if_pos null, if_pos null]
      · rw [leads, if_neg nonnull, if_pos rfl, if_neg nonnull]
  | cons node front ih =>
    cases rounds with
    | zero => exact .out_of_rounds _
    | succ rounds =>
      obtain ⟨rfl, path⟩ := path
      obtain ⟨nonnull, other⟩ := passed start (by simp)
      simp only [unlinkBlock, getNext, load_ok (readable start (by simp)), ok_bind,
        if_neg nonnull, if_neg other]
      exact (ih path (fun n member => passed n (by simp [member]))
        fun n member => readable n (List.mem_cons_of_mem _ member)).succ

theorem unlinkNext_eq_ok (leads : g.word (p + 8) = block) (positive : 0 < diff)
    (clear : p + 16 ≤ subseq + 8 ∨ subseq + 16 ≤ p + 8) (wide : block + 16 ≤ subseq + 8) :
    unlinkNext sys subseq diff g p = .ok h' ↔
      g.accessible sys (p + 8) 8 = true ∧ g.accessible sys (block + 8) 8 = true ∧
      g.accessible sys (subseq + 8) 8 = true ∧
      g.accessible sys (g.word (block + 8) + 16) 8 = true ∧
      g.accessible sys (subseq + 16) 8 = true ∧
      h' = (((g.put (subseq + 8) (g.word (block + 8))).put (g.word (block + 8) + 16) subseq).put
        (p + 8) subseq).put (subseq + 16) p := by
  have again : ∀ v, (g.put (subseq + 8) v).word (p + 8) = block := fun v =>
    (word_put_apart clear).trans leads
  have after : ∀ v, (g.put (subseq + 8) v).word (block + 8) = g.word (block + 8) := fun v =>
    word_put_apart (Or.inl wide)
  simp only [unlinkNext, gt_iff_lt, if_pos positive, getNext, setNext, setPrev, bind_eq_ok,
    load_eq_ok, store_eq_ok, and_assoc, exists_and_left, exists_eq_left, leads, again, after,
    put_accessible]
  constructor
  · rintro ⟨one, two, three, -, -, four, -, five, same⟩
    exact ⟨one, two, three, four, five, same⟩
  · rintro ⟨one, two, three, four, five, same⟩
    exact ⟨one, two, three, one, two, four, one, five, same⟩

theorem unlinkNext_spent_eq_ok (leads : g.word (p + 8) = block) (spent : ¬ 0 < diff)
    (clear : p + 16 ≤ g.word (block + 8) + 16 ∨ g.word (block + 8) + 24 ≤ p + 8)
    (clear' : block + 16 ≤ g.word (block + 8) + 16 ∨ g.word (block + 8) + 24 ≤ block + 8) :
    unlinkNext sys subseq diff g p = .ok h' ↔
      g.accessible sys (p + 8) 8 = true ∧ g.accessible sys (block + 8) 8 = true ∧
      g.accessible sys (g.word (block + 8) + 16) 8 = true ∧
      h' = (g.put (g.word (block + 8) + 16) p).put (p + 8) (g.word (block + 8)) := by
  have again : (g.put (g.word (block + 8) + 16) p).word (p + 8) = block :=
    (word_put_apart clear).trans leads
  have after : (g.put (g.word (block + 8) + 16) p).word (block + 8) = g.word (block + 8) :=
    word_put_apart clear'
  simp only [unlinkNext, gt_iff_lt, if_neg spent, getNext, setNext, setPrev, bind_eq_ok,
    load_eq_ok, store_eq_ok, and_assoc, exists_and_left, exists_eq_left, leads, again, after,
    put_accessible]
  constructor
  · rintro ⟨one, two, three, -, -, -, same⟩
    exact ⟨one, two, three, same⟩
  · rintro ⟨one, two, three, same⟩
    exact ⟨one, two, three, one, two, one, same⟩

/-- The code writes the `prev` of the node behind the block, whether there is one
or not. -/
theorem unlinkNext_spent_behind (leads : g.word (p + 8) = block) (spent : ¬ 0 < diff)
    (ran : unlinkNext sys subseq diff g p = .ok h') :
    g.accessible sys (g.word (block + 8) + 16) 8 = true := by
  simp only [unlinkNext, gt_iff_lt, if_neg spent, getNext, setPrev, bind_eq_ok, load_eq_ok,
    store_eq_ok, and_assoc, exists_and_left, exists_eq_left, leads] at ran
  exact ran.2.2.1

/-! ### Searching the list -/

/-- The search visits the nodes in order, up to the first that is large enough. -/
theorem findBlock_settles
    (readable : ∀ n ∈ nodes, h.accessible sys n 8 = true ∧ h.accessible sys (n + 8) 8 = true)
    (chain : Chain 0 h.nextAt start nodes) :
    Settles .spent nodes.length rounds (findBlock sys h total rounds start)
      (.ok ((h.firstFit nodes total).getD 0)) := by
  induction nodes generalizing rounds start with
  | nil =>
    cases rounds with
    | zero => exact .out_of_rounds _
    | succ rounds => exact .of_eq (by simp [findBlock, chain_nil.mp chain, firstFit])
  | cons node nodes ih =>
    obtain ⟨rfl, nonnull, rest⟩ := chain_cons.mp chain
    cases rounds with
    | zero => exact .out_of_rounds _
    | succ rounds =>
      obtain ⟨sizeRead, nextRead⟩ := readable start (by simp)
      simp only [findBlock, if_neg nonnull, getSize, getNext, load_ok sizeRead, load_ok nextRead,
        ok_bind, firstFit, List.find?_cons]
      by_cases fits : total ≤ h.word start
      · have taken : total ≤ h.sizeAt start := fits
        simp only [ge_iff_le, if_pos fits, decide_eq_true taken]
        exact .refl _
      · have passed : ¬ total ≤ h.sizeAt start := fits
        simp only [ge_iff_le, if_neg fits, decide_eq_false passed]
        exact (ih (fun n member => readable n (by simp [member])) rest).succ

/-- What is left of `kumalloc` once the search is done. -/
theorem kumalloc_searched
    (readable : ∀ n ∈ nodes, h.accessible sys n 8 = true ∧ h.accessible sys (n + 8) 8 = true)
    (list : h.FreeList nodes) (positive : 0 < size)
    (whole : sizeAlign (add size blockSize) = total) :
    Settles .spent nodes.length rounds (kumalloc sys rounds h size)
      (match h.firstFit nodes total with
        | none => do
          let h' ← (growHeap sys h total).2.setSize sys (growHeap sys h total).1 total
          .ok (add (growHeap sys h total).1 blockSize, h')
        | some block => do
          let h' ← reuseBlock sys rounds h block total
          .ok (add block blockSize, h')) := by
  simp only [kumalloc, if_neg (Nat.ne_of_gt positive), whole]
  refine Settles.bind (findBlock_settles readable list) (.of_eq ?_)
  cases found : h.firstFit nodes total with
  | none => rfl
  | some block =>
    have nonnull : block ≠ 0 := Chain.ne_null list (List.mem_of_find?_eq_some found)
    simp only [Option.getD_some, if_neg nonnull]

/-- The search for the predecessor of a listed node stops there. -/
theorem unlinkBlock_settles
    (readable : ∀ n ∈ front ++ [p], h.accessible sys (n + 8) 8 = true)
    (chain : Chain 0 h.nextAt start (front ++ p :: block :: back)) :
    Settles .spent front.length.succ rounds (unlinkBlock sys block subseq sizeDiff h rounds start)
      (unlinkNext sys subseq sizeDiff h p) := by
  have leads : h.word (p + 8) = block := next_word chain
  have nonnull : block ≠ 0 := chain.ne_null (by simp)
  have passed : ∀ n ∈ front, h.word (n + 8) ≠ 0 ∧ h.word (n + 8) ≠ block := by
    intro n member
    refine ⟨chain.next_ne_null member, next_word_ne chain (by simp [member]) ?_⟩
    rintro rfl
    exact chain.not_mem_front member
  refine (unlinkBlock_walks chain.front_path passed readable (Or.inr ⟨leads, nonnull⟩)).trans
    (.of_eq ?_)
  rw [leads, if_neg nonnull]

/-- The heap after the three stores every reuse begins with: the remainder's
`next` and `size`, and the header of the block. -/
def stamped (h : Heap) (block total : Nat) : Heap :=
  ((h.put (block + total + 8) 0).put (block + total) (h.word block - total)).put block total

theorem stamped_word (wide : 16 ≤ total)
    (clear : a + 8 ≤ block ∨ block + 8 ≤ a ∧ a + 8 ≤ block + total ∨ block + total + 16 ≤ a) :
    (stamped h block total).word a = h.word a := by
  simp (disch := omega) only [stamped, word_put_apart]

/-- The three stores leave the list as it is. -/
theorem stamped_chain (tidy : Tidy sys h live free) (member : block ∈ free) (wide : 16 ≤ total)
    (fits : total ≤ h.word block) : Chain 0 (stamped h block total).nextAt h.head free := by
  refine chain_congr (fun n listed => ?_) tidy.chain
  have clear : n = block ∨ n + 32 ≤ block ∨ block + h.word block + 16 ≤ n := by
    by_cases same : n = block
    · exact Or.inl same
    · have apart := tidy.node_apart listed member same
      have bounds := tidy.node_bounds listed
      omega
  have next : (stamped h block total).word (n + 8) = h.word (n + 8) :=
    stamped_word wide (by omega)
  exact next

theorem stamped_header (small : total < 2 ^ 64) : (stamped h block total).word block = total :=
  stamp_header small

theorem stamped_size (wide : 8 ≤ total) :
    (stamped h block total).word (block + total) = h.word block - total := by
  have small := word_lt h block
  exact stamp_size wide (by omega)

/-- Stores inside a listed block reach no live block. -/
theorem Untouched.put_inside (same : Untouched live h h') (tidy : Tidy sys h live free)
    (member : n ∈ free) (low : n ≤ a) (high : a + 8 ≤ n + h.word n) :
    Untouched live h (h'.put a v) :=
  same.put fun _ used => (tidy.block_apart_node used member).imp (by omega) (by omega)

theorem stamped_untouched (tidy : Tidy sys h live free) (member : block ∈ free)
    (room : total + 16 ≤ h.word block) : Untouched live h (stamped h block total) := by
  refine Untouched.put_inside ?_ tidy member (by omega) (by omega)
  refine Untouched.put_inside ?_ tidy member (by omega) (by omega)
  exact Untouched.put_inside (.refl live h) tidy member (by omega) (by omega)

theorem reuseBlock_eq (tidy : Tidy sys h live free) (member : block ∈ free) (wide : 16 ≤ total)
    (fits : total ≤ h.word block) :
    reuseBlock sys rounds h block total =
      if h.head = block then
        reuseHead sys (block + total) ((h.word block - total : Nat) : Int) (stamped h block total)
      else unlinkBlock sys block (block + total) ((h.word block - total : Nat) : Int)
        (stamped h block total) rounds h.head := by
  have bounds := tidy.node_bounds member
  have high := tidy.ledger.high
  have limit := sys.limit_lt
  have bounded := tidy.bounded
  have subseq : add block total = block + total := add_of_lt (by omega)
  have header : h.accessible sys block 8 = true := (tidy.node_accessible member).1
  have size : h.accessible sys (block + total) 8 = true :=
    accessible_inside (by omega) (by omega) high
  have next : h.accessible sys (block + total + 8) 8 = true :=
    accessible_inside (by omega) (by omega) high
  have old : (h.put (block + total + 8) 0).word block = h.word block :=
    word_put_apart (by omega)
  have diff : subInt (toInt (h.word block)) (toInt total) = ((h.word block - total : Nat) : Int) := by
    rw [subInt_toInt fits, toInt_of_lt (by omega)]
  have remainder : toSize ((h.word block - total : Nat) : Int) = h.word block - total :=
    toSize_natCast (by omega)
  simp only [reuseBlock, subseq, setNext, setSize, getSize, store_ok, load_ok, put_accessible,
    header, size, next, old, diff, remainder, ok_bind, put_head, stamped]

/-- The block has its size, and its remainder has its place on the list. -/
structure Divided (h h' : Heap) (front back : List Nat) (block total : Nat) : Prop
    extends Relinked h h' front back block (block + total) where
  header : h'.word block = total
  size : h'.word (block + total) = h.word block - total
  next : h'.word (block + total + 8) = h.word (block + 8)

theorem Divided.freeList (divided : Divided h h' front back block total)
    (tidy : Tidy sys h live (front ++ block :: back)) (wide : 16 ≤ total) :
    h'.FreeList (front ++ (block + total) :: back) := by
  refine divided.toRelinked.freeList tidy.chain (chain_cons.mpr ⟨rfl, by omega, ?_⟩)
  have next : h'.nextAt (block + total) = h.nextAt block := divided.next
  rw [next]
  exact divided.back_chain tidy.chain.next_chain

/-- Besides, nothing was written outside the free blocks. -/
structure Carved (h h' : Heap) (live : List Block) (front back : List Nat) (block total : Nat) :
    Prop extends Divided h h' front back block total where
  live : Untouched live h h'

theorem reuseHead_divided (tidy : Tidy sys h live (block :: back)) (wide : 16 ≤ total)
    (room : total + 8 ≤ h.word block)
    (ran : reuseHead sys (block + total) ((h.word block - total : Nat) : Int)
      (stamped h block total) = .ok h') : Divided h h' [] back block total := by
  have bounds := tidy.node_bounds (n := block) (by simp)
  have bounded := tidy.bounded
  have limit := sys.limit_lt
  have high := tidy.ledger.high
  have first : h.head = block := tidy.chain.head_eq
  have valid := word_lt h (block + 8)
  have next : (stamped h block total).word (block + 8) = h.word (block + 8) :=
    stamped_word wide (by omega)
  obtain ⟨-, -, -, -, rfl⟩ :=
    (reuseHead_eq_ok (g := stamped h block total) first (by omega)).mp ran
  rw [next]
  generalize Heap.word (put _ _ _) (block + 16) = prev
  have others : ∀ n ∈ back, n + 32 ≤ block ∨ block + h.word block + 16 ≤ n := fun n member =>
    Tidy.others_apart (show Tidy sys h live ([] ++ block :: back) from tidy) member
  refine ⟨⟨?_, ?_, ?_, ?_⟩, ?_, ?_, ?_⟩
  · rw [if_pos first]
    rfl
  · simp
  · intro n member
    have apart := others n member
    simp (disch := omega) only [setHead_word, word_put_apart, stamped_word wide]
  · intro n member
    have apart := others n (by simpa using member)
    simp (disch := omega) only [setHead_word, word_put_apart, stamped_word wide]
  · simp (disch := omega) only [setHead_word, word_put_apart, stamped_header]
  · simp (disch := omega) only [setHead_word, word_put_apart, stamped_size]
  · rw [setHead_word, word_put_apart (by omega), word_put_same valid]

theorem reuseHead_carved (tidy : Tidy sys h live (block :: back)) (wide : 16 ≤ total)
    (room : total + 24 ≤ h.word block)
    (ran : reuseHead sys (block + total) ((h.word block - total : Nat) : Int)
      (stamped h block total) = .ok h') : Carved h h' live [] back block total := by
  refine ⟨reuseHead_divided tidy wide (by omega) ran, ?_⟩
  have first : h.head = block := tidy.chain.head_eq
  obtain ⟨-, -, -, -, rfl⟩ :=
    (reuseHead_eq_ok (g := stamped h block total) first (by omega)).mp ran
  refine Untouched.of_mem ?_ setHead_mem
  refine Untouched.put_inside ?_ tidy (n := block) (by simp) (by omega) (by omega)
  refine Untouched.put_inside ?_ tidy (n := block) (by simp) (by omega) (by omega)
  exact stamped_untouched tidy (by simp) (by omega)

/-- What the split of a block inside the list writes. There is a node behind the
block, or the code would have written through NULL. -/
theorem unlinkNext_writes (tidy : Tidy sys h live (front ++ p :: block :: back)) (wide : 16 ≤ total)
    (room : total + 8 ≤ h.word block)
    (ran : unlinkNext sys (block + total) ((h.word block - total : Nat) : Int)
      (stamped h block total) p = .ok h') :
    ∃ y ys, back = y :: ys ∧ h' = ((((stamped h block total).put (block + total + 8) y).put
      (y + 16) (block + total)).put (p + 8) (block + total)).put (block + total + 16) p := by
  have split : front ++ p :: block :: back = (front ++ [p]) ++ block :: back := by simp
  have before := (split ▸ tidy).others_apart (n := p) (by simp)
  have atP : (stamped h block total).word (p + 8) = block := by
    rw [stamped_word wide (by omega)]
    exact next_word tidy.chain
  have atBlock : (stamped h block total).word (block + 8) = h.word (block + 8) :=
    stamped_word wide (by omega)
  obtain ⟨-, -, -, mapped, -, rfl⟩ :=
    (unlinkNext_eq_ok atP (by omega) (by omega) (by omega)).mp ran
  rw [atBlock] at mapped ⊢
  cases back with
  | nil =>
    rw [last_word (split ▸ tidy).chain] at mapped
    have low := (accessible_bounds mapped).1
    omega
  | cons y ys =>
    have follows : h.word (block + 8) = y := next_word (split ▸ tidy).chain
    rw [follows]
    exact ⟨y, ys, rfl, rfl⟩

theorem unlinkNext_divided (tidy : Tidy sys h live (front ++ p :: block :: back))
    (wide : 16 ≤ total) (room : total + 8 ≤ h.word block)
    (ran : unlinkNext sys (block + total) ((h.word block - total : Nat) : Int)
      (stamped h block total) p = .ok h') :
    Divided h h' (front ++ [p]) back block total := by
  obtain ⟨y, ys, rfl, rfl⟩ := unlinkNext_writes tidy wide room ran
  have bounds := tidy.node_bounds (n := block) (by simp)
  have bounded := tidy.bounded
  have limit := sys.limit_lt
  have high := tidy.ledger.high
  have split : front ++ p :: block :: y :: ys = (front ++ [p]) ++ block :: y :: ys := by simp
  have others : ∀ n ∈ (front ++ [p]) ++ y :: ys, n + 32 ≤ block ∨ block + h.word block + 16 ≤ n :=
    fun n member => (split ▸ tidy).others_apart member
  have before := others p (by simp)
  have behind := others y (by simp)
  have follows : h.word (block + 8) = y := next_word (split ▸ tidy).chain
  have valid : y < 2 ^ 64 := follows ▸ word_lt h (block + 8)
  have alone : p ∉ block :: y :: ys := (List.nodup_cons.mp tidy.chain.nodup.of_append_right).1
  have yp : y + 32 ≤ p ∨ p + 32 ≤ y := tidy.fields_apart (by simp) (by simp) (by
    rintro rfl
    exact alone (by simp))
  have inList : ∀ n ∈ (front ++ [p]) ++ y :: ys, n ∈ front ++ p :: block :: y :: ys := by
    intro n member
    simp only [List.mem_append, List.mem_cons, List.not_mem_nil, or_false] at member ⊢
    grind
  have fieldsP : ∀ n ∈ (front ++ [p]) ++ y :: ys, n = p ∨ n + 32 ≤ p ∨ p + 32 ≤ n := by
    intro n member
    by_cases same : n = p
    · exact Or.inl same
    · exact Or.inr (tidy.fields_apart (inList n member) (by simp) same)
  have fieldsY : ∀ n ∈ (front ++ [p]) ++ y :: ys, n = y ∨ n + 32 ≤ y ∨ y + 32 ≤ n := by
    intro n member
    by_cases same : n = y
    · exact Or.inl same
    · exact Or.inr (tidy.fields_apart (inList n member) (by simp) same)
  refine ⟨⟨?_, ?_, ?_, ?_⟩, ?_, ?_, ?_⟩
  · rw [if_neg tidy.chain.start_ne]
    rfl
  · intro n member
    have apartBlock := others n (List.mem_append_left _ member)
    have apartY := fieldsY n (List.mem_append_left _ member)
    by_cases last : n = p
    · rw [last, word_put_apart (by omega), word_put_same (by omega), if_pos (next_word tidy.chain)]
    · have apartP := (fieldsP n (List.mem_append_left _ member)).resolve_left last
      have otherwise := next_word_ne tidy.chain (inList n (List.mem_append_left _ member)) last
      simp (disch := omega) only [if_neg otherwise, word_put_apart, stamped_word wide]
  · intro n member
    have apartBlock := others n (List.mem_append_right _ member)
    have apartY := fieldsY n (List.mem_append_right _ member)
    have apartP := (fieldsP n (List.mem_append_right _ member)).resolve_left (by
      rintro rfl
      exact alone (List.mem_cons_of_mem _ member))
    simp (disch := omega) only [word_put_apart, stamped_word wide]
  · intro n member
    have apartBlock := others n member
    have apartY := fieldsY n member
    have apartP := fieldsP n member
    simp (disch := omega) only [word_put_apart, stamped_word wide]
  · simp (disch := omega) only [word_put_apart, stamped_header]
  · simp (disch := omega) only [word_put_apart, stamped_size]
  · simp (disch := omega) only [word_put_apart, word_put_same valid, follows]

theorem unlinkNext_carved (tidy : Tidy sys h live (front ++ p :: block :: back)) (wide : 16 ≤ total)
    (room : total + 24 ≤ h.word block) (after : ∀ n ∈ back.head?, 24 ≤ h.word n)
    (ran : unlinkNext sys (block + total) ((h.word block - total : Nat) : Int)
      (stamped h block total) p = .ok h') :
    Carved h h' live (front ++ [p]) back block total := by
  refine ⟨unlinkNext_divided tidy wide (by omega) ran, ?_⟩
  obtain ⟨y, ys, rfl, rfl⟩ := unlinkNext_writes tidy wide (by omega) ran
  have boundsP := tidy.node_bounds (n := p) (by simp)
  have roomy := after y (by simp)
  refine Untouched.put_inside ?_ tidy (n := block) (by simp) (by omega) (by omega)
  refine Untouched.put_inside ?_ tidy (n := p) (by simp) (by omega) (by omega)
  refine Untouched.put_inside ?_ tidy (n := y) (by simp) (by omega) (by omega)
  refine Untouched.put_inside ?_ tidy (n := block) (by simp) (by omega) (by omega)
  exact stamped_untouched tidy (by simp) (by omega)

/-- A block and its remainder are in order in the place of the block they were. -/
theorem Carved.tidy (carved : Carved h h' live front back block total)
    (tidy : Tidy sys h live (front ++ block :: back)) (same : SameBreak h h') (wide : 16 ≤ total)
    (aligned : total % 8 = 0) (room : total + 24 ≤ h.word block)
    (holds : requested + 8 ≤ total) :
    Tidy sys h' (⟨block, total, requested⟩ :: live) (front ++ (block + total) :: back) := by
  have bounds := tidy.node_bounds (n := block) (by simp)
  have base := sys.base_above
  have whole : total + (h.word block - total) = h.word block := by omega
  have middle := tidy.space.perm (List.Perm.refl _) (extents_middle h front back block)
  rw [← whole] at middle
  have listed := carved.extents (block + total)
  rw [carved.size] at listed
  refine tidy.restock same (carved.toDivided.freeList tidy wide)
    (middle.carve (by omega) (by omega)) listed ?_ ?_ ?_
  · intro b member
    cases List.mem_cons.mp member with
    | inl new =>
      subst new
      exact carved.header
    | inr old =>
      rw [carved.live.word old (by have := tidy.block_bounds old; omega)]
      exact tidy.headers b old
  · intro e member
    simp only [List.map_cons, List.cons_append, List.mem_cons, List.mem_append] at member
    rcases member with rfl | used | rfl | others
    · simp only [Block.extent]
      omega
    · exact tidy.grain e (List.mem_append_left _ used)
    · simp only
      omega
    · refine tidy.grain e (List.mem_append_right _ ?_)
      exact (extents_middle h front back block).mem_iff.mpr (List.mem_cons_of_mem _ others)
  · intro b member
    cases List.mem_cons.mp member with
    | inl new =>
      subst new
      exact holds
    | inr old => exact tidy.room b old

/-- A reuse that returns has split the head, or a block behind the node in front of it. -/
theorem reuseBlock_cases (tidy : Tidy sys h live (front ++ block :: back)) (wide : 16 ≤ total)
    (fits : total ≤ h.word block) (ran : reuseBlock sys rounds h block total = .ok h') :
    (front = [] ∧ h.head = block ∧ reuseHead sys (block + total)
      ((h.word block - total : Nat) : Int) (stamped h block total) = .ok h') ∨
    ∃ front' p, front = front' ++ [p] ∧ h.head ≠ block ∧ unlinkNext sys (block + total)
      ((h.word block - total : Nat) : Int) (stamped h block total) p = .ok h' := by
  rw [reuseBlock_eq tidy (by simp) wide fits] at ran
  cases List.eq_nil_or_concat' front with
  | inl empty =>
    subst empty
    have first : h.head = block :=
      Chain.head_eq (show Chain 0 h.nextAt h.head (block :: back) from tidy.chain)
    rw [if_pos first] at ran
    exact Or.inl ⟨rfl, first, ran⟩
  | inr split =>
    obtain ⟨front, p, rfl⟩ := split
    have shape : (front ++ [p]) ++ block :: back = front ++ p :: block :: back := by simp
    rw [shape] at tidy
    have notHead : h.head ≠ block := tidy.chain.start_ne
    rw [if_neg notHead] at ran
    have list := stamped_chain tidy (by simp : block ∈ front ++ p :: block :: back) wide fits
    have readable : ∀ n ∈ front ++ [p], (stamped h block total).accessible sys (n + 8) 8 = true := by
      intro n member
      refine (tidy.node_accessible (n := n) ?_).2
      rw [← shape]
      exact List.mem_append_left _ member
    exact Or.inr ⟨front, p, rfl, notHead, (unlinkBlock_settles readable list).returned ran⟩

/-- A clean reuse: the first fit is cut in two. -/
theorem reuseBlock_carved (tidy : Tidy sys h live free) (wide : 16 ≤ total)
    (found : h.firstFit free total = some block) (clean : ReusesCleanly h free total)
    (ran : reuseBlock sys rounds h block total = .ok h') :
    ∃ front back, free = front ++ block :: back ∧ Carved h h' live front back block total := by
  obtain ⟨room, after⟩ := clean block found
  have room : total + 24 ≤ h.word block := room
  obtain ⟨front, back, rfl⟩ := List.append_of_mem (List.mem_of_find?_eq_some found)
  refine ⟨front, back, rfl, ?_⟩
  obtain ⟨rfl, -, split⟩ | ⟨front, p, rfl, notHead, split⟩ := reuseBlock_cases tidy wide (by omega) ran
  · exact reuseHead_carved tidy wide room split
  · have shape : (front ++ [p]) ++ block :: back = front ++ p :: block :: back := by simp
    rw [shape] at tidy after
    refine unlinkNext_carved tidy wide room (fun n first => ?_) split
    obtain ⟨rest, rfl⟩ := List.head?_eq_some_iff.mp first
    exact after (Ne.symm notHead) n (by simp)
      (follows_iff.mpr ⟨front ++ [p], rest, by simp⟩)

/-! ### `kumalloc` and `kucalloc` -/

/-- Growth goes on where the heap ended. -/
theorem Grown.at_top (grown : Grown sys h total block g) (tidy : Tidy sys h live free) :
    block = h.top sys := by
  rw [grown.placed, top]
  split
  · next unused => exact tidy.untouched unused
  · rfl

/-- The header of the new block is behind every node. -/
theorem Grown.words (grown : Grown sys h total block g) (tidy : Tidy sys h live free)
    (member : n ∈ free) : n + h.word n + 16 ≤ block ∧ (g.put block total).word n = h.word n ∧
      (g.put block total).word (n + 8) = h.word (n + 8) := by
  have bounds := tidy.node_bounds member
  have below : h.blockEnd = block := by
    have placed := grown.placed
    rw [if_neg (by omega)] at placed
    exact placed.symm
  have same : ∀ x, x < block → (g.put block total).mem x = h.mem x := by
    intro x outside
    rw [mem_put_outside (Or.inl outside), grown.mem]
  exact ⟨by omega, word_congr fun x _ high => same x (by omega),
    word_congr fun x _ high => same x (by omega)⟩

/-- A block appended at the end of the heap. -/
theorem grown_tidy (tidy : Tidy sys h live free) (grown : Grown sys h total block g)
    (stored : g.setSize sys block total = .ok h') (wide : 16 ≤ total) (aligned : total % 8 = 0)
    (small : total < 2 ^ 63) (holds : requested + 8 ≤ total)
    (bounded : h'.brk < sys.base + 2 ^ 31) :
    Tidy sys h' (⟨block, total, requested⟩ :: live) free ∧ Untouched live h h' := by
  simp only [setSize, store_eq_ok] at stored
  obtain ⟨-, rfl⟩ := stored
  have base := sys.base_above
  have baseAligned := sys.base_aligned
  have atTop := grown.at_top tidy
  have low : sys.base ≤ block := atTop ▸ tidy.space.tiling.ordered
  have newTop : (g.put block total).top sys = h.top sys + total := by
    rw [top, put_blockEnd, grown.blockEnd, if_neg (by omega), atTop]
  have below : ∀ e ∈ live.map Block.extent ++ free.map h.extentAt, e.stop ≤ block := by
    intro e member
    rw [atTop]
    exact (tidy.space.tiling.inside e member).2
  have same : ∀ x, x < block → (g.put block total).mem x = h.mem x := by
    intro x outside
    rw [mem_put_outside (Or.inl outside), grown.mem]
  have untouched : Untouched live h (g.put block total) := by
    intro b used x inside
    have under := below b.extent (List.mem_append_left _ (List.mem_map_of_mem used))
    exact same x (Nat.lt_of_lt_of_le inside.2 under)
  have extents : free.map (g.put block total).extentAt = free.map h.extentAt :=
    List.map_congr_left fun n member => congrArg (Extent.mk n) (grown.words tidy member).2.1
  refine ⟨⟨?_, ?_, ?_, ?_, ?_, ?_, ?_, bounded⟩, untouched⟩
  · have head : (g.put block total).head = h.head := grown.head
    rw [FreeList, head]
    exact chain_congr (fun n member => (grown.words tidy member).2.2) tidy.chain
  · intro b member
    cases List.mem_cons.mp member with
    | inl new =>
      subst new
      exact word_put_same (by omega)
    | inr old =>
      rw [untouched.word old (by have := tidy.block_bounds old; omega)]
      exact tidy.headers b old
  · rw [extents, newTop, atTop]
    exact tidy.space.grow (by omega)
  · rw [extents]
    intro e member
    cases List.mem_cons.mp (show e ∈ _ :: _ from member) with
    | inl new =>
      subst new
      exact ⟨atTop ▸ tidy.top_aligned, aligned, wide⟩
    | inr old => exact tidy.grain e old
  · intro b member
    cases List.mem_cons.mp member with
    | inl new =>
      subst new
      exact holds
    | inr old => exact tidy.room b old
  · exact (mem_sameBreak g _).ledger grown.ledger
  · intro unused
    have placed := grown.blockEnd
    simp only [put_blockEnd] at unused
    omega

theorem exactTotal_bounds (positive : 0 < size) (fits : RequestFits size) :
    16 ≤ exactTotal size ∧ exactTotal size % 8 = 0 ∧ exactTotal size < 2 ^ 63 ∧
      size + 8 ≤ exactTotal size := by
  have room := fits.2
  generalize shape : exactTotal size = total at room ⊢
  unfold exactTotal at shape
  omega

/-- A clean `kumalloc` hands out a new block and leaves the others alone. -/
theorem kumalloc_tidy (tidy : Tidy sys h live free) (positive : 0 < size) (fits : RequestFits size)
    (clean : ReusesCleanly h free (exactTotal size)) (holds : requested + 8 ≤ exactTotal size)
    (ran : kumalloc sys rounds h size = .ok (p, h'))
    (quiet : h'.sbrkFailures = h.sbrkFailures) (bounded : h'.brk < sys.base + 2 ^ 31) :
    ∃ block free', p = block + 8 ∧
      Tidy sys h' (⟨block, exactTotal size, requested⟩ :: live) free' ∧ Untouched live h h' := by
  obtain ⟨wide, aligned, small, -⟩ := exactTotal_bounds positive fits
  have whole := ran
  simp only [kumalloc, if_neg (Nat.ne_of_gt positive), totalSize_exact fits.1] at whole
  obtain ⟨block, found, whole⟩ := bind_eq_ok.mp whole
  have search := (findBlock_settles (fun n => tidy.node_accessible) tidy.chain).returned found
  cases fit : h.firstFit free (exactTotal size) with
  | none =>
    rw [fit] at search
    cases search
    obtain ⟨block, g, grown, place, stored⟩ :=
      kumalloc_grown positive fits tidy.ledger found ran quiet
    obtain ⟨tidy', untouched⟩ := grown_tidy tidy grown stored wide aligned small holds bounded
    exact ⟨block, free, place, tidy', untouched⟩
  | some block =>
    rw [fit] at search
    cases search
    have listed : block ∈ free := List.mem_of_find?_eq_some fit
    have bounds := tidy.node_bounds listed
    have high := tidy.ledger.high
    have limit := sys.limit_lt
    simp only [Option.getD_some, if_neg (tidy.chain.ne_null listed)] at whole
    obtain ⟨final, reused, last⟩ := bind_eq_ok.mp whole
    cases last
    obtain ⟨front, back, rfl, carved⟩ := reuseBlock_carved tidy wide fit clean reused
    have room : exactTotal size + 24 ≤ h.word block := (clean block fit).1
    refine ⟨block, _, ?_, carved.tidy tidy (reuseBlock_sameBreak reused) wide aligned room holds,
      carved.live⟩
    exact add_header (by omega)

/-- Writes into the payload of a block reach no header, node or other block. -/
theorem Tidy.write_payload {mem : Memory}
    (tidy : Tidy sys h (⟨block, total, requested⟩ :: live) free)
    (clear : ∀ x, x < block + 8 ∨ block + total ≤ x → mem x = h.mem x) :
    Tidy sys { h with mem := mem } (⟨block, total, requested⟩ :: live) free ∧
      Untouched live h { h with mem := mem } := by
  refine ⟨tidy.frame (fun b used x low high => clear x ?_) fun n listed x low high => clear x ?_,
    fun b used x inside => clear x ?_⟩
  · cases List.mem_cons.mp used with
    | inl new =>
      subst new
      exact Or.inl high
    | inr old =>
      have apart := tidy.block_apart_block old
      have bounds := tidy.block_bounds (b := b) (List.mem_cons_of_mem _ old)
      simp only at apart
      omega
  · have apart := tidy.block_apart_node List.mem_cons_self listed
    have bounds := tidy.node_bounds listed
    simp only at apart
    omega
  · have apart := tidy.block_apart_block used
    simp only [Extent.Holds, Block.extent, Extent.stop] at inside
    simp only at apart
    omega

/-- A clean `kucalloc` does so too: it clears only what it hands out. -/
theorem kucalloc_tidy (tidy : Tidy sys h live free) (positive : 0 < nmemb * size)
    (fits : (Call.kucalloc nmemb size).NoWrap)
    (clean : ReusesCleanly h free (exactTotal ((nmemb * size + 7) / 8 * 8)))
    (ran : kucalloc sys rounds h nmemb size = .ok (p, h'))
    (quiet : h'.sbrkFailures = h.sbrkFailures) (bounded : h'.brk < sys.base + 2 ^ 31) :
    ∃ block free', p = block + 8 ∧
      Tidy sys h' (⟨block, exactTotal ((nmemb * size + 7) / 8 * 8), nmemb * size⟩ :: live) free' ∧
      Untouched live h h' := by
  have nonzero : ¬ (size = 0 ∨ nmemb = 0) := by
    rintro (zero | zero) <;> simp [zero] at positive
  simp only [kucalloc, if_neg nonzero, productSize_exact fits.1] at ran
  obtain ⟨⟨q, middle⟩, allocated, ran⟩ := bind_eq_ok.mp ran
  obtain ⟨final, cleared, last⟩ := bind_eq_ok.mp ran
  cases last
  have asked : nmemb * size ≤ (nmemb * size + 7) / 8 * 8 := by omega
  have fits' := fits.2
  generalize (nmemb * size + 7) / 8 * 8 = request at clean allocated cleared asked fits' ⊢
  have positive' : 0 < request := by omega
  have room := (exactTotal_bounds positive' fits').2.2.2
  have same : h'.sbrkFailures = middle.sbrkFailures ∧ h'.brk = middle.brk := by
    obtain ⟨mem, rfl⟩ := memsetZero_mem cleared
    exact ⟨rfl, rfl⟩
  have holds : nmemb * size + 8 ≤ exactTotal request := by omega
  obtain ⟨block, free', place, tidy', untouched⟩ := kumalloc_tidy tidy positive' fits' clean holds
    allocated (same.1 ▸ quiet) (same.2 ▸ bounded)
  subst place
  refine ⟨block, free', rfl, ?_⟩
  unfold memsetZero at cleared
  split at cleared
  · cases cleared
    obtain ⟨written, kept⟩ := tidy'.write_payload fun x outside =>
      fill_outside middle.mem 0 (show x < block + 8 ∨ block + 8 + request ≤ x by omega)
    exact ⟨written, untouched.trans kept⟩
  · cases cleared

end

end Comp304.Alloc
