import Comp304.Alloc.CleanRuns

/-! The links back. Of the places that rewrite a `next`, only some write the `prev` that
belongs to it: when the head is split, a node is trimmed away, or a freed block takes the
place of its right neighbour, the node behind keeps its old `prev`. -/
namespace Comp304.Alloc
open Library.Budget Library.ByteMemory Library.Lp64 Library.Extents Library.LinkedChain Heap

/-- The reused block leaves a remainder that can hold a node. If it is the head, it is
the only node, and if not, the node behind it has room for the `prev` that is written. -/
def ReusesMirrored (h : Heap) (nodes : List Nat) (total : Nat) : Prop :=
  ∀ block ∈ h.firstFit nodes total, total + 24 ≤ h.sizeAt block ∧
    (block = h.head → nodes = [block]) ∧
    (block ≠ h.head → ∀ after ∈ nodes, Follows nodes block after → 24 ≤ h.sizeAt after)

instance (h : Heap) (nodes : List Nat) (total : Nat) : Decidable (ReusesMirrored h nodes total) :=
  inferInstanceAs (Decidable (∀ block ∈ h.firstFit nodes total,
    _ ∧ (_ → _) ∧ (_ → ∀ after ∈ nodes, _ → _)))

/-- The block that is trimmed away, if any, is the first or the last one of the list. -/
def TrimsMirrored (h : Heap) (nodes : List Nat) (address : Nat) : Prop :=
  ∀ left ∈ h.leftOf nodes address, left = h.head ∨ nodes.getLast? = some left

instance (h : Heap) (nodes : List Nat) (address : Nat) : Decidable (TrimsMirrored h nodes address) :=
  inferInstanceAs (Decidable (∀ left ∈ h.leftOf nodes address, _ ∨ _))

/-- Both neighbours are listed alone and in address order, or the right one is the head
and the left one comes directly behind it. -/
def JoinsMirrored (h : Heap) (nodes : List Nat) (left right : Nat) : Prop :=
  nodes = [left, right] ∨ h.head = right ∧ Follows nodes right left

instance (h : Heap) (nodes : List Nat) (left right : Nat) :
    Decidable (JoinsMirrored h nodes left right) := inferInstanceAs (Decidable (_ ∨ _))

/-- What `kufree` needs on each of its paths, by which neighbours are free. The right
neighbour, when it is replaced, is the last one of the list. -/
structure FreesMirrored (h : Heap) (nodes : List Nat) (address total : Nat) : Prop where
  last : h.blockEnd = address + total → TrimsMirrored h nodes address
  alone : h.blockEnd ≠ address + total → h.leftOf nodes address = none →
    address + total ∉ nodes → ∀ first ∈ nodes.head?, 24 ≤ h.sizeAt first
  right : h.blockEnd ≠ address + total → h.leftOf nodes address = none →
    address + total ∈ nodes → nodes.getLast? = some (address + total)
  both : h.blockEnd ≠ address + total → ∀ left ∈ h.leftOf nodes address,
    address + total ∈ nodes → JoinsMirrored h nodes left (address + total)

instance (h : Heap) (nodes : List Nat) (address total : Nat) :
    Decidable (FreesMirrored h nodes address total) :=
  decidable_of_iff
    ((h.blockEnd = address + total → TrimsMirrored h nodes address) ∧
      (h.blockEnd ≠ address + total → h.leftOf nodes address = none →
        address + total ∉ nodes → ∀ first ∈ nodes.head?, 24 ≤ h.sizeAt first) ∧
      (h.blockEnd ≠ address + total → h.leftOf nodes address = none →
        address + total ∈ nodes → nodes.getLast? = some (address + total)) ∧
      (h.blockEnd ≠ address + total → ∀ left ∈ h.leftOf nodes address,
        address + total ∈ nodes → JoinsMirrored h nodes left (address + total)))
    ⟨fun ⟨last, alone, right, both⟩ => ⟨last, alone, right, both⟩,
      fun ⟨last, alone, right, both⟩ => ⟨last, alone, right, both⟩⟩

/-- The condition on one call, read off the free list before it. -/
def Call.MirrorsOn (s : State) (nodes : List Nat) : Call → Prop
  | .kumalloc size => 0 < size → ReusesMirrored s.heap nodes (exactTotal size)
  | .kucalloc nmemb size =>
    0 < nmemb * size → ReusesMirrored s.heap nodes (exactTotal ((nmemb * size + 7) / 8 * 8))
  | .kufree ptr => ∀ b ∈ s.live, b.ptr = ptr → FreesMirrored s.heap nodes b.addr b.total
  | .kurealloc _ _ => False

instance (s : State) (nodes : List Nat) : (call : Call) → Decidable (call.MirrorsOn s nodes)
  | .kumalloc _ => inferInstanceAs (Decidable (_ → _))
  | .kucalloc _ _ => inferInstanceAs (Decidable (_ → _))
  | .kufree ptr => inferInstanceAs (Decidable (∀ b ∈ s.live, b.ptr = ptr → _))
  | .kurealloc _ _ => isFalse id

/-- A call of `kumalloc`, `kucalloc` or `kufree` that keeps the links back right. -/
def Call.Mirrors (s : State) (call : Call) : Prop :=
  ∀ nodes, s.heap.FreeList nodes → call.MirrorsOn s nodes

/-- A run of such calls. -/
abbrev MirrorRun (sys : System) : State → Prop :=
  Run sys fun s call => call.Plain ∧ call.Mirrors s

/-- Whether the call keeps the links back right, for scripts. -/
def Call.checkMirrors (s : State) (call : Call) : Bool :=
  match s.heap.listed 64 s.heap.head with
  | none => false
  | some nodes => call.Plain ∧ call.MirrorsOn s nodes

theorem Call.checkMirrors_sound (s : State) (call : Call) (passed : call.checkMirrors s = true) :
    call.Plain ∧ call.Mirrors s := by
  unfold checkMirrors at passed
  split at passed
  · cases passed
  · next nodes walked =>
    have holds := of_decide_eq_true passed
    refine ⟨holds.1, fun nodes' list => ?_⟩
    exact chain_unique (Heap.listed_chain walked) list ▸ holds.2

/-- A script of such calls that ends as tested gives a run that does. -/
theorem mirror_of_script {test : State → Bool}
    (ends : (playScript pagedSystem Call.checkMirrors 64 freshState calls).any test = true) :
    ∃ s, MirrorRun pagedSystem s ∧ test s = true := by
  obtain ⟨s, played, passed⟩ := (Option.any_eq_true _ _).mp ends
  exact ⟨s, run_of_script Call.checkMirrors_sound (.start _) played, passed⟩

/-- The links back mirror the links forward, and each node but the head is found from the
node its `prev` names. -/
structure LinksMirror (h : Heap) : Prop where
  mirror : ∀ n m, h.OnFreeList n → h.nextAt n = m → m ≠ 0 → h.prevAt m = n
  predecessor : ∀ x, h.OnFreeList x → x ≠ h.head →
    h.OnFreeList (h.prevAt x) ∧ h.nextAt (h.prevAt x) = x

section
variable {sys : System} {s s' : State} {h g k h' : Heap} {live : List Block} {free : List Nat}
  {b c : Block}

/-! ### Clean calls -/

theorem linkedBack_of_mirrored (mirrored : Mirrored h.prevAt free) (node : Nat) :
    h.LinkedBack free node := fun before _ follows => mirrored before node follows

theorem ReusesMirrored.clean (mirrors : ReusesMirrored h free total) :
    ReusesCleanly h free total :=
  fun block found => ⟨(mirrors block found).1, (mirrors block found).2.2⟩

theorem FreesMirrored.clean (mirrors : FreesMirrored h free address total)
    (mirrored : Mirrored h.prevAt free) : FreesCleanly h free address total where
  last _ left _ := linkedBack_of_mirrored mirrored left
  alone := mirrors.alone
  right _ _ _ := linkedBack_of_mirrored mirrored _
  both notLast left found listed := by
    obtain rfl | ⟨-, follows⟩ := mirrors.both notLast left found listed
    · exact Or.inl ⟨rfl, mirrored _ _ (follows_iff.mpr ⟨[], [], rfl⟩)⟩
    · exact Or.inr ⟨follows, linkedBack_of_mirrored mirrored _⟩

theorem Call.MirrorsOn.clean {call : Call} (mirrors : call.MirrorsOn s free)
    (mirrored : Mirrored s.heap.prevAt free) : call.CleanOn s free := by
  cases call with
  | kumalloc size => exact fun positive => (mirrors positive).clean
  | kucalloc nmemb size => exact fun positive => (mirrors positive).clean
  | kufree ptr => exact fun b used same => (mirrors b used same).clean mirrored
  | kurealloc ptr size => exact mirrors

/-! ### What is written -/

/-- The `prev` of a node is outside every payload, in the smallest blocks too. -/
theorem Tidy.prev_outside (tidy : Tidy sys h live free) (used : c ∈ live) (listed : n ∈ free) :
    n + 24 ≤ c.addr + 8 ∨ c.addr + c.total ≤ n := by
  have bounds := tidy.node_bounds listed
  have apart := tidy.block_apart_node used listed
  omega

theorem prevAt_eq (h : Heap) (node : Nat) : h.prevAt node = h.word (node + 16) := rfl

/-- The head is split: no `prev` of another node is written. -/
theorem reuseHead_prev (tidy : Tidy sys h live (block :: back)) (wide : 16 ≤ total)
    (room : total + 24 ≤ h.word block)
    (ran : reuseHead sys (block + total) ((h.word block - total : Nat) : Int)
      (stamped h block total) = .ok h') : ∀ n ∈ back, h'.prevAt n = h.prevAt n := by
  have bounds := tidy.node_bounds (n := block) (by simp)
  have first : h.head = block := tidy.chain.head_eq
  obtain ⟨-, -, -, -, rfl⟩ :=
    (reuseHead_eq_ok (g := stamped h block total) first (by omega)).mp ran
  intro n member
  have apart := Tidy.others_apart (show Tidy sys h live ([] ++ block :: back) from tidy) member
  simp (disch := omega) only [prevAt_eq, setHead_word, word_put_apart, stamped_word wide]

/-- A block inside the list is split: both links back are written. -/
theorem unlinkNext_prev (tidy : Tidy sys h live (front ++ p :: block :: y :: ys))
    (wide : 16 ≤ total) (room : total + 24 ≤ h.word block)
    (ran : unlinkNext sys (block + total) ((h.word block - total : Nat) : Int)
      (stamped h block total) p = .ok h') :
    h'.prevAt (block + total) = p ∧ h'.prevAt y = block + total ∧
      ∀ n ∈ front ++ p :: ys, h'.prevAt n = h.prevAt n := by
  obtain ⟨_, _, same, rfl⟩ := unlinkNext_writes tidy wide (by omega) ran
  cases same
  have bounds := tidy.node_bounds (n := block) (by simp)
  have boundsP := tidy.node_bounds (n := p) (by simp)
  have high := tidy.ledger.high
  have limit := sys.limit_lt
  have split : front ++ p :: block :: y :: ys = (front ++ [p]) ++ block :: y :: ys := by simp
  have others : ∀ n ∈ (front ++ [p]) ++ y :: ys, n + 32 ≤ block ∨ block + h.word block + 16 ≤ n :=
    fun n member => (split ▸ tidy).others_apart member
  have before := others p (by simp)
  have after := others y (by simp)
  have shifted : front ++ p :: block :: y :: ys = (front ++ [p, block]) ++ y :: ys := by simp
  have apartY : ∀ n ∈ (front ++ [p, block]) ++ ys, n + 32 ≤ y ∨ y + 32 ≤ n := by
    intro n member
    obtain ⟨listed, different⟩ := (shifted ▸ tidy).other_ne member
    exact (shifted ▸ tidy).fields_apart listed (by simp) different
  have yp := apartY p (by simp)
  refine ⟨word_put_same (by omega), ?_, fun n member => ?_⟩
  · rw [prevAt_eq, word_put_apart (by omega), word_put_apart (by omega), word_put_same (by omega)]
  · have apart := others n (by grind)
    have apartN := apartY n (by grind)
    have apartP : n = p ∨ n + 32 ≤ p ∨ p + 32 ≤ n := by
      by_cases same : n = p
      · exact Or.inl same
      · exact Or.inr (tidy.fields_apart (by grind) (by simp) same)
    simp (disch := omega) only [prevAt_eq, word_put_apart, stamped_word wide]

/-- A clean reuse of a block keeps the links back, unless it is the head and other nodes
are behind it. -/
theorem reuseBlock_mirrored (tidy : Tidy sys h live free) (mirrored : Mirrored h.prevAt free)
    (wide : 16 ≤ total) (found : h.firstFit free total = some block)
    (clean : ReusesCleanly h free total) (ran : reuseBlock sys rounds h block total = .ok h') :
    ∃ front back, free = front ++ block :: back ∧ Carved h h' live front back block total ∧
      (Mirrored h'.prevAt (front ++ (block + total) :: back) ↔ (block = h.head → free = [block])) := by
  obtain ⟨front, back, rfl, carved⟩ := reuseBlock_carved tidy wide found clean ran
  refine ⟨front, back, rfl, carved, ?_⟩
  have room : total + 24 ≤ h.word block := (clean block found).1
  obtain ⟨rfl, first, split⟩ | ⟨front, p, rfl, notHead, split⟩ :=
    reuseBlock_cases tidy wide (by omega) ran
  · have same := reuseHead_prev tidy wide room split
    rw [mirrored_exchange mirrored (by omega) (fun some => absurd rfl some) same]
    simp [first]
  · have shape (node : Nat) (nodes : List Nat) :
        (front ++ [p]) ++ node :: nodes = front ++ p :: node :: nodes := by simp
    rw [shape] at tidy mirrored ⊢
    refine iff_of_true ?_ (fun first => absurd first.symm notHead)
    obtain ⟨y, ys, rfl, -⟩ := unlinkNext_writes tidy wide (by omega) split
    obtain ⟨link, link', same⟩ := unlinkNext_prev tidy wide room split
    exact mirrored_replace mirrored link link' same

/-- A `kumalloc` that is clean keeps the links back exactly when it does not split a head
that has other nodes behind it. -/
theorem kumalloc_mirrored (tidy : Tidy sys h live free) (mirrored : Mirrored h.prevAt free)
    (positive : 0 < size) (fits : RequestFits size)
    (clean : ReusesCleanly h free (exactTotal size))
    (ran : kumalloc sys rounds h size = .ok (q, h')) (quiet : h'.sbrkFailures = h.sbrkFailures)
    (bounded : h'.brk < sys.base + 2 ^ 31) :
    ∃ free', h'.FreeList free' ∧
      (Mirrored h'.prevAt free' ↔ ReusesMirrored h free (exactTotal size)) := by
  obtain ⟨wide, aligned, small, holds⟩ := exactTotal_bounds positive fits
  have whole := ran
  simp only [kumalloc, if_neg (Nat.ne_of_gt positive), totalSize_exact fits.1] at whole
  obtain ⟨block, found, whole⟩ := bind_eq_ok.mp whole
  have search := (findBlock_settles (fun n => tidy.node_accessible) tidy.chain).returned found
  cases fit : h.firstFit free (exactTotal size) with
  | none =>
    rw [fit] at search
    cases search
    obtain ⟨block, g, grown, -, stored⟩ :=
      kumalloc_grown positive fits tidy.ledger found ran quiet
    have list := (grown_tidy tidy grown stored wide aligned small holds bounded).1.chain
    simp only [setSize, store_eq_ok] at stored
    obtain ⟨-, rfl⟩ := stored
    refine ⟨free, list, iff_of_true ((mirrored_congr fun n member => ?_).mpr mirrored) ?_⟩
    · have behind := (grown.words tidy (List.mem_of_mem_tail member)).1
      have bounds := tidy.node_bounds (List.mem_of_mem_tail member)
      refine word_congr fun x _ _ => ?_
      rw [mem_put_outside (Or.inl (by omega)), grown.mem]
    · intro block taken
      rw [fit] at taken
      cases taken
  | some block =>
    rw [fit] at search
    cases search
    have listed : block ∈ free := List.mem_of_find?_eq_some fit
    simp only [Option.getD_some, if_neg (tidy.chain.ne_null listed)] at whole
    obtain ⟨final, reused, last⟩ := bind_eq_ok.mp whole
    cases last
    obtain ⟨front, back, same, carved, exact_⟩ :=
      reuseBlock_mirrored tidy mirrored wide fit clean reused
    have room := (clean block fit).1
    have list := (carved.tidy (same ▸ tidy) (reuseBlock_sameBreak reused) wide aligned room
      holds).chain
    refine ⟨_, list, exact_.trans ?_⟩
    constructor
    · intro alone block' taken
      obtain rfl : block = block' := Option.some.inj (fit.symm.trans taken)
      exact ⟨room, alone, (clean block fit).2⟩
    · exact fun mirrors => (mirrors block fit).2.1

theorem kucalloc_mirrored (tidy : Tidy sys h live free) (mirrored : Mirrored h.prevAt free)
    (positive : 0 < nmemb * size) (fits : (Call.kucalloc nmemb size).NoWrap)
    (clean : ReusesCleanly h free (exactTotal ((nmemb * size + 7) / 8 * 8)))
    (ran : kucalloc sys rounds h nmemb size = .ok (q, h'))
    (quiet : h'.sbrkFailures = h.sbrkFailures) (bounded : h'.brk < sys.base + 2 ^ 31) :
    ∃ free', h'.FreeList free' ∧
      (Mirrored h'.prevAt free' ↔ ReusesMirrored h free (exactTotal ((nmemb * size + 7) / 8 * 8))) := by
  have nonzero : ¬ (size = 0 ∨ nmemb = 0) := by
    rintro (zero | zero) <;> simp [zero] at positive
  simp only [kucalloc, if_neg nonzero, productSize_exact fits.1] at ran
  obtain ⟨⟨p, middle⟩, allocated, ran⟩ := bind_eq_ok.mp ran
  obtain ⟨final, cleared, last⟩ := bind_eq_ok.mp ran
  cases last
  have asked : nmemb * size ≤ (nmemb * size + 7) / 8 * 8 := by omega
  have fits' := fits.2
  generalize (nmemb * size + 7) / 8 * 8 = request at clean allocated cleared asked fits' ⊢
  have positive' : 0 < request := by omega
  have room := (exactTotal_bounds positive' fits').2.2.2
  have same : h'.sbrkFailures = middle.sbrkFailures ∧ h'.brk = middle.brk := by
    obtain ⟨mem, rfl⟩ := memsetZero_mem cleared
    exact ⟨rfl, rfl⟩
  have quiet' := same.1 ▸ quiet
  have bounded' := same.2 ▸ bounded
  obtain ⟨block, free₁, rfl, tidy', -⟩ :=
    kumalloc_tidy tidy positive' fits' clean room allocated quiet' bounded'
  obtain ⟨free₂, list, exact_⟩ :=
    kumalloc_mirrored tidy mirrored positive' fits' clean allocated quiet' bounded'
  obtain rfl := chain_unique tidy'.chain list
  unfold memsetZero at cleared
  split at cleared
  · cases cleared
    have outside (x : Nat) (clear : x < block + 8 ∨ block + exactTotal request ≤ x) :=
      fill_outside middle.mem 0 (show x < block + 8 ∨ block + 8 + request ≤ x by omega)
    obtain ⟨written, -⟩ := tidy'.write_payload outside
    refine ⟨free₁, written.chain, (mirrored_congr fun n member => ?_).trans exact_⟩
    have apart := tidy'.prev_outside List.mem_cons_self (List.mem_of_mem_tail member)
    refine word_congr fun x low high => outside x ?_
    simp only at apart
    omega
  · cases cleared

/-! ### Freed blocks -/

/-- The `prev` of a node is clear of what is written when a node in front of another one
gets a new `next`. -/
theorem Tidy.prev_clear (tidy : Tidy sys h live free) (listed : n ∈ free) (listed' : m ∈ free) :
    n + 24 ≤ m ∨ m + 16 ≤ n + 16 := by
  by_cases same : n = m
  · omega
  · have apart := tidy.fields_apart listed listed' same
    omega

/-- New links in nodes of the front leave every `prev` of the list as it was. -/
theorem Tidy.kept_prev (tidy : Tidy sys h live (front ++ rest))
    (words : ∀ a, (∀ n ∈ front, a + 8 ≤ n ∨ n + 16 ≤ a) → k.word a = g.word a) :
    ∀ n ∈ front ++ rest, k.prevAt n = g.prevAt n := by
  intro n member
  refine words _ fun m inFront => ?_
  have clear := tidy.prev_clear member (List.mem_append_left rest inFront)
  omega

/-- The block put in front of the list becomes the `prev` of the old head. -/
theorem insertBlock_prev (tidy : Tidy sys h (b :: live) (first :: nodes))
    (ran : insertBlock sys h b.addr = .ok k) :
    k.prevAt first = b.addr ∧ ∀ n ∈ nodes, k.prevAt n = h.prevAt n := by
  have bounds := tidy.block_bounds (b := b) (by simp)
  have high := tidy.ledger.high
  have limit := sys.limit_lt
  have head : h.head = first := tidy.chain.head_eq
  simp only [insertBlock, setNext, setPrev, bind_eq_ok, store_eq_ok, head] at ran
  obtain ⟨-, ⟨-, rfl⟩, -, ⟨-, rfl⟩, same⟩ := ran
  obtain rfl := Except.ok.inj same
  refine ⟨?_, fun n member => ?_⟩
  · rw [prevAt_eq, setHead_word, put_head, head, word_put_same (by omega)]
  have split : first :: nodes = [] ++ first :: nodes := rfl
  obtain ⟨listed, different⟩ := (split ▸ tidy).other_ne (n := n) (by simpa using member)
  have apart := tidy.fields_apart listed (by simp) different
  have outside := tidy.prev_outside (c := b) (by simp) listed
  simp (disch := omega) only [prevAt_eq, setHead_word, put_head, head, word_put_apart]

/-- A left neighbour that grows keeps its place. -/
theorem grownLeft_prev (tidy : Tidy sys h live (front ++ l :: back)) (size : Nat) :
    ∀ n ∈ front ++ l :: back, (h.put l size).prevAt n = h.prevAt n := by
  intro n member
  have clear := tidy.prev_clear member (m := l) (by simp)
  exact word_put_apart (by omega)

/-- The block that takes the place of its right neighbour takes over the `prev` too. -/
theorem replaceRight_prev (tidy : Tidy sys h (b :: live) (front ++ r :: back))
    (left : h.leftOf (front ++ r :: back) b.addr = none) (place : b.addr + b.total = r)
    (linked : h.LinkedBack (front ++ r :: back) r) (ran : replaceRight sys h b.addr r = .ok k) :
    k.prevAt b.addr = h.prevAt r ∧ ∀ n ∈ front ++ back, k.prevAt n = h.prevAt n := by
  obtain ⟨others, -⟩ := pair_clear tidy place
  obtain ⟨_, placed, -, -, -, words⟩ := takenOver_place tidy place linked
  rw [replaceRight_eq tidy (by simp) place] at ran
  obtain rfl := Except.ok.inj (placed.symm.trans ran)
  constructor
  · rw [prevAt_eq, words _ fun m inFront => ?_, takenOver, word_put_same (word_lt h _), prevAt_eq]
    have apart := others m (List.mem_append_left _ inFront)
    omega
  · intro n member
    have listed := (tidy.other_ne member).1
    refine (tidy.kept_prev words n listed).trans (takenOver_word ?_)
    -- a node of sixteen bytes right before the block would have its `prev` there
    have apart := others n member
    have gap := leftOf_none left listed
    have boundsN := tidy.node_bounds listed
    have bounds := tidy.block_bounds (b := b) (by simp)
    have apart' := tidy.block_apart_node (b := b) (by simp) listed
    omega

/-- The left neighbour that stays for all three is its own `prev`. -/
theorem mergeThree_prev (tidy : Tidy sys h (b :: live) (front ++ r :: l :: back))
    (ends : l + h.word l = b.addr) (place : b.addr + b.total = r)
    (linked : h.LinkedBack (front ++ r :: l :: back) r)
    (ran : mergeThree sys h l b.addr r = .ok k) :
    k.prevAt l = l ∧ ∀ n ∈ front ++ back, k.prevAt n = h.prevAt n := by
  have boundsL := tidy.node_bounds (n := l) (by simp)
  have high := tidy.ledger.high
  have limit := sys.limit_lt
  obtain ⟨placed, taken, -, relinked, -, words⟩ :=
    widened_place tidy ends place linked (h.word l + b.total + h.word r)
  rw [mergeThree_eq tidy ends place, taken, ok_bind] at ran
  have listedHead : placed.head ∈ front ++ r :: l :: back := by
    rw [relinked.head]
    split
    · simp
    · cases front with
      | nil => exact absurd tidy.chain.head_eq ‹_›
      | cons first front => simp [show h.head = first from tidy.chain.head_eq]
  -- neither the new `next` of the node in front nor the cut loop reaches a `prev`
  have kept : ∀ n ∈ front ++ r :: l :: back,
      k.prevAt n = (widened h l (h.word l + b.total + h.word r)).prevAt n := by
    intro n member
    have clear := tidy.prev_clear member listedHead
    have same := tidy.kept_prev words n member
    obtain rfl | rfl := cutSelfLoop_cases ran
    · exact same
    · rw [prevAt_eq, word_put_apart (by omega)]
      exact same
  constructor
  · rw [kept l (by simp), prevAt_eq, widened, word_put_same (by omega)]
  · intro n member
    have apart := kept_apart tidy member
    rw [kept n (by grind), prevAt_eq, widened_word (by omega), prevAt_eq]

/-- No free neighbour: the links back stay right. -/
theorem alone_mirrored (tidy : Tidy sys h (b :: live) free) (mirrored : Mirrored h.prevAt free)
    (notLast : h.blockEnd ≠ b.addr + b.total) (noLeft : h.leftOf free b.addr = none)
    (noRight : b.addr + b.total ∉ free) (roomy : ∀ first ∈ free.head?, 24 ≤ h.sizeAt first)
    (ran : mergePlan sys h free b.addr b.total = .ok k) :
    k.FreeList (b.addr :: free) ∧ Mirrored k.prevAt (b.addr :: free) := by
  obtain ⟨_, plan, -, tidy', -⟩ := mergePlan_alone tidy notLast noLeft noRight roomy
  obtain rfl := Except.ok.inj (plan.symm.trans ran)
  refine ⟨tidy'.chain, ?_⟩
  cases free with
  | nil => exact mirrored_single b.addr
  | cons first nodes =>
    have nonempty : first :: nodes ≠ [] := by simp
    simp only [mergePlan, if_neg nonempty, noLeft, decide_eq_false noRight] at ran
    obtain ⟨link, same⟩ := insertBlock_prev tidy ran
    exact mirrored_push mirrored link same

/-- A free neighbour on the left: the links back stay right. -/
theorem left_mirrored (tidy : Tidy sys h (b :: live) free) (mirrored : Mirrored h.prevAt free)
    (notLast : h.blockEnd ≠ b.addr + b.total) (left : h.leftOf free b.addr = some l)
    (noRight : b.addr + b.total ∉ free) (ran : mergePlan sys h free b.addr b.total = .ok k) :
    k.FreeList free ∧ Mirrored k.prevAt free := by
  obtain ⟨_, plan, -, tidy', -⟩ := mergePlan_left tidy notLast left noRight
  obtain rfl := Except.ok.inj (plan.symm.trans ran)
  refine ⟨tidy'.chain, ?_⟩
  obtain ⟨front, back, rfl⟩ := List.append_of_mem (leftOf_some left).1
  have nonempty : front ++ l :: back ≠ [] := by simp
  simp only [mergePlan, if_neg nonempty, left, decide_eq_false noRight, mergeTwo, getSize, setSize,
    bind_eq_ok, load_eq_ok, store_eq_ok] at ran
  obtain ⟨_, -, _, -, -, rfl⟩ := ran
  refine (mirrored_congr fun n inside => ?_).mpr mirrored
  exact grownLeft_prev tidy _ n (List.mem_of_mem_tail inside)

/-- A free neighbour on the right: the node behind it keeps it as its `prev`. -/
theorem right_mirrored (tidy : Tidy sys h (b :: live) free) (mirrored : Mirrored h.prevAt free)
    (noLeft : h.leftOf free b.addr = none) (right : b.addr + b.total ∈ free)
    (ran : mergePlan sys h free b.addr b.total = .ok k) :
    ∃ free', k.FreeList free' ∧
      (Mirrored k.prevAt free' ↔ free.getLast? = some (b.addr + b.total)) := by
  have linked := linkedBack_of_mirrored mirrored (b.addr + b.total)
  have bounds := tidy.block_bounds (b := b) (by simp)
  obtain ⟨front, back, split⟩ := List.append_of_mem right
  have nonempty : free ≠ [] := List.ne_nil_of_mem right
  have found := right
  generalize place : b.addr + b.total = r at *
  subst split
  obtain ⟨_, plan, -, tidy', -⟩ := mergePlan_right tidy noLeft place linked
  obtain rfl := Except.ok.inj (plan.symm.trans ran)
  simp only [mergePlan, if_neg nonempty, noLeft, place, decide_eq_true found] at ran
  obtain ⟨taken, same⟩ := replaceRight_prev tidy noLeft place linked ran
  refine ⟨_, tidy'.chain, ?_⟩
  rw [mirrored_exchange mirrored (by omega) (fun _ => taken) same, tidy.chain.last_eq_iff]

/-- Free neighbours on both sides, in either order. -/
theorem both_mirrored (tidy : Tidy sys h (b :: live) free) (mirrored : Mirrored h.prevAt free)
    (left : h.leftOf free b.addr = some l) (right : b.addr + b.total ∈ free)
    (joins : JoinsCleanly h free l (b.addr + b.total))
    (ran : mergePlan sys h free b.addr b.total = .ok k) :
    ∃ free', k.FreeList free' ∧
      (Mirrored k.prevAt free' ↔ JoinsMirrored h free l (b.addr + b.total)) := by
  obtain ⟨listed, ends⟩ := leftOf_some left
  have nonempty : free ≠ [] := List.ne_nil_of_mem listed
  simp only [mergePlan, if_neg nonempty, left, decide_eq_true right] at ran
  generalize place : b.addr + b.total = r at *
  obtain ⟨rfl, linked⟩ | ⟨follows, linked⟩ := joins
  · obtain ⟨_, plan, -, list, -⟩ := mergeThree_pair tidy ends place linked
    obtain rfl := Except.ok.inj (plan.symm.trans ran)
    exact ⟨[l], list, iff_of_true (mirrored_single l) (Or.inl rfl)⟩
  · obtain ⟨front, back, rfl⟩ := follows_iff.mp follows
    obtain ⟨_, plan, -, list, -⟩ := mergeThree_ordered tidy ends place linked
    obtain rfl := Except.ok.inj (plan.symm.trans ran)
    obtain ⟨own, same⟩ := mergeThree_prev tidy ends place linked ran
    refine ⟨_, list, ?_⟩
    have shape : front ++ r :: l :: back = (front ++ [r]) ++ l :: back := by simp
    have absent : l ∉ front := fun inFront =>
      (shape ▸ tidy.chain).not_mem_front (List.mem_append_left [r] inFront)
    rw [mirrored_loop mirrored absent own same, ← tidy.chain.start_eq_iff, JoinsMirrored]
    constructor
    · exact fun first => Or.inr ⟨first, follows⟩
    · rintro (pair | ⟨first, -⟩)
      · -- only two nodes, so nothing is in front of the right one
        cases front with
        | nil => exact tidy.chain.head_eq
        | cons first front =>
          have length := congrArg List.length pair
          simp only [List.length_append, List.length_cons, List.length_nil] at length
          omega
      · exact first

theorem mergePlan_mirrored (tidy : Tidy sys h (b :: live) free) (mirrored : Mirrored h.prevAt free)
    (notLast : h.blockEnd ≠ b.addr + b.total) (clean : FreesCleanly h free b.addr b.total)
    (ran : mergePlan sys h free b.addr b.total = .ok k) :
    ∃ free', k.FreeList free' ∧
      (Mirrored k.prevAt free' ↔ FreesMirrored h free b.addr b.total) := by
  by_cases right : b.addr + b.total ∈ free
  · cases left : h.leftOf free b.addr with
    | none =>
      obtain ⟨free', list, exact_⟩ := right_mirrored tidy mirrored left right ran
      refine ⟨free', list, exact_.trans ⟨fun last => ?_, fun mirrors =>
        mirrors.right notLast left right⟩⟩
      exact ⟨(absurd · notLast), fun _ _ apart => absurd right apart, fun _ _ _ => last,
        fun _ _ found => nomatch left.symm.trans found⟩
    | some l =>
      have joins := clean.both notLast l left right
      obtain ⟨free', list, exact_⟩ := both_mirrored tidy mirrored left right joins ran
      refine ⟨free', list, exact_.trans ⟨fun joins => ?_, fun mirrors =>
        mirrors.both notLast l left right⟩⟩
      refine ⟨(absurd · notLast), fun _ _ apart => absurd right apart,
        fun _ noLeft => (nomatch left.symm.trans noLeft), fun _ l' found _ => ?_⟩
      obtain rfl := Option.some.inj (left.symm.trans found)
      exact joins
  · cases left : h.leftOf free b.addr with
    | none =>
      have roomy := clean.alone notLast left right
      obtain ⟨list, mirrored'⟩ := alone_mirrored tidy mirrored notLast left right roomy ran
      refine ⟨_, list, iff_of_true mirrored' ?_⟩
      exact ⟨(absurd · notLast), fun _ _ _ => roomy, fun _ _ listed => absurd listed right,
        fun _ _ _ listed => absurd listed right⟩
    | some l =>
      obtain ⟨list, mirrored'⟩ := left_mirrored tidy mirrored notLast left right ran
      refine ⟨free, list, iff_of_true mirrored' ?_⟩
      exact ⟨(absurd · notLast), fun _ noLeft => (nomatch left.symm.trans noLeft),
        fun _ _ listed => absurd listed right, fun _ _ _ listed => absurd listed right⟩

/-- A free block before the last one is trimmed: the node behind it keeps it as its `prev`. -/
theorem trim_mirrored (tidy : Tidy sys h (b :: live) free) (mirrored : Mirrored h.prevAt free)
    (lowered : Lowered sys h g b.addr) (left : h.leftOf free b.addr = some t)
    (ran : giveBack sys g t (h.word t) = .ok k) :
    ∃ free', k.FreeList free' ∧ (Mirrored k.prevAt free' ↔ t = h.head ∨ free.getLast? = some t) := by
  obtain ⟨listed, ends⟩ := leftOf_some left
  have linked := linkedBack_of_mirrored mirrored t
  obtain ⟨front, back, rfl⟩ := List.append_of_mem listed
  obtain ⟨relinked, -, -, words⟩ := giveBack_relinks tidy linked lowered ends ran
  have same : ∀ n ∈ front ++ back, k.prevAt n = h.prevAt n :=
    fun n member => tidy.kept_prev words n (tidy.other_ne member).1
  refine ⟨front ++ back, relinked.freeList tidy.chain (relinked.back_chain tidy.chain.next_chain), ?_⟩
  rw [mirrored_remove mirrored tidy.chain.not_mem_front same, tidy.chain.last_eq_iff, eq_comm (a := t),
    tidy.chain.start_eq_iff]

theorem freePlan_mirrored (tidy : Tidy sys h (b :: live) free) (mirrored : Mirrored h.prevAt free)
    (clean : FreesCleanly h free b.addr b.total)
    (ran : freePlan sys h free b.addr b.total = .ok k) :
    ∃ free', k.FreeList free' ∧
      (Mirrored k.prevAt free' ↔ FreesMirrored h free b.addr b.total) := by
  unfold freePlan at ran
  by_cases last : h.blockEnd = b.addr + b.total
  · have trims : FreesMirrored h free b.addr b.total ↔ TrimsMirrored h free b.addr :=
      ⟨fun mirrors => mirrors.last last, fun trims =>
        ⟨fun _ => trims, absurd last, absurd last, absurd last⟩⟩
    simp only [if_pos last] at ran
    have lowered := freed_lowered tidy last
    generalize lowerEnd sys h b.addr b.total = g at ran lowered
    rw [trims]
    cases left : h.leftOf free b.addr with
    | none =>
      rw [left] at ran
      cases ran
      refine ⟨free, ?_, iff_of_true ?_ fun t found => nomatch left.symm.trans found⟩
      · rw [FreeList, lowered.head]
        exact chain_congr (fun n _ => lowered.word _) tidy.chain
      · exact (mirrored_congr fun n _ => lowered.word _).mpr mirrored
    | some t =>
      rw [left] at ran
      obtain ⟨trimmed, given, rest⟩ := bind_eq_ok.mp ran
      obtain ⟨next, -, same⟩ := bind_eq_ok.mp rest
      cases same
      obtain ⟨free', list, exact_⟩ := trim_mirrored tidy mirrored lowered left given
      refine ⟨free', list, exact_.trans ⟨fun place t' found => ?_, fun trims => trims t left⟩⟩
      obtain rfl := Option.some.inj (left.symm.trans found)
      exact place
  · rw [if_neg last] at ran
    exact mergePlan_mirrored tidy mirrored last clean ran

/-- A `kufree` that is clean keeps the links back exactly when the nodes it takes off or
replaces are where no link back has to change. -/
theorem kufree_mirrored (tidy : Tidy sys h live free) (mirrored : Mirrored h.prevAt free)
    (used : b ∈ live) (clean : FreesCleanly h free b.addr b.total)
    (ran : kufree sys rounds h b.ptr = .ok k) :
    ∃ free', k.FreeList free' ∧
      (Mirrored k.prevAt free' ↔ FreesMirrored h free b.addr b.total) := by
  have shifted := tidy.perm (tidy.live_perm used)
  exact freePlan_mirrored shifted mirrored clean ((kufree_settles shifted clean.last).returned ran)

/-! ### Runs -/

/-- After a clean call the links back are right exactly when the call was one that keeps
them so. -/
theorem step_mirrored (tidy : Tidy sys s.heap s.live free) (mirrored : Mirrored s.heap.prevAt free)
    (plain : call.Plain) (clean : call.CleanOn s free) (step : Step sys s call s') :
    ∃ free', s'.heap.FreeList free' ∧ (Mirrored s'.heap.prevAt free' ↔ call.MirrorsOn s free) := by
  obtain ⟨rounds, result, ran, -⟩ := step.returns
  have quiet := step.granted
  have bounded := step.bounded
  cases call with
  | kumalloc size =>
    by_cases zero : size = 0
    · simp only [Call.exec, kumalloc, if_pos zero] at ran
      obtain ⟨-, same⟩ := Prod.mk.inj (Except.ok.inj ran)
      rw [← same]
      exact ⟨free, tidy.chain, iff_of_true mirrored fun positive => absurd zero (by omega)⟩
    · have positive : 0 < size := Nat.pos_of_ne_zero zero
      obtain ⟨free', list, exact_⟩ := kumalloc_mirrored tidy mirrored positive step.noWrap
        (clean positive) ran quiet bounded
      exact ⟨free', list, exact_.trans
        ⟨fun mirrors _ => mirrors, fun mirrors => mirrors positive⟩⟩
  | kucalloc nmemb size =>
    by_cases zero : size = 0 ∨ nmemb = 0
    · simp only [Call.exec, kucalloc, if_pos zero] at ran
      obtain ⟨-, same⟩ := Prod.mk.inj (Except.ok.inj ran)
      rw [← same]
      refine ⟨free, tidy.chain, iff_of_true mirrored fun positive => ?_⟩
      rcases zero with zero | zero <;> simp [zero] at positive
    · have positive : 0 < nmemb * size := by
        simp only [not_or] at zero
        exact Nat.mul_pos (Nat.pos_of_ne_zero zero.2) (Nat.pos_of_ne_zero zero.1)
      obtain ⟨free', list, exact_⟩ := kucalloc_mirrored tidy mirrored positive step.noWrap
        (clean positive) ran quiet bounded
      exact ⟨free', list, exact_.trans
        ⟨fun mirrors _ => mirrors, fun mirrors => mirrors positive⟩⟩
  | kufree ptr =>
    obtain ⟨b, used, rfl⟩ := step.legal
    obtain ⟨final, ran, same⟩ := bind_eq_ok.mp ran
    cases same
    obtain ⟨free', list, exact_⟩ := kufree_mirrored tidy mirrored used (clean b used rfl) ran
    refine ⟨free', list, exact_.trans ⟨fun mirrors c used' same => ?_, fun mirrors =>
      mirrors b used rfl⟩⟩
    rw [tidy.live_unique used used' same]
    exact mirrors
  | kurealloc ptr size => exact plain.elim

/-- What the client writes reaches no `prev`. -/
theorem client_mirrored {mem : Memory} (tidy : Tidy sys s.heap s.live free)
    (mirrored : Mirrored s.heap.prevAt free) (writes : ClientWrites sys s mem) :
    Mirrored (Heap.prevAt { s.heap with mem := mem }) free := by
  refine (mirrored_congr fun n inside => ?_).mpr mirrored
  have listed := List.mem_of_mem_tail inside
  have bounds := tidy.node_bounds listed
  refine word_congr fun x low high => writes x (by omega) (by omega) fun c used payload => ?_
  have outside := tidy.prev_outside used listed
  have room := tidy.room c used
  simp only [Block.ptr] at payload
  omega

theorem linksMirror_iff (list : h.FreeList free) : LinksMirror h ↔ Mirrored h.prevAt free := by
  constructor
  · intro links before node follows
    obtain ⟨front, back, rfl⟩ := follows_iff.mp follows
    exact links.mirror before node (list.reach_iff.mpr (by simp)) list.next_eq
      (list.ne_null (by simp))
  · intro mirrored
    refine ⟨fun n m on leads nonnull => ?_, fun x on other => ?_⟩
    · obtain ⟨front, back, rfl⟩ := List.append_of_mem (list.reach_iff.mp on)
      cases back with
      | nil => exact absurd (leads.symm.trans list.next_last) nonnull
      | cons after back =>
        obtain rfl := list.next_eq.symm.trans leads
        exact mirrored n after (follows_iff.mpr ⟨front, back, rfl⟩)
    · obtain ⟨front, back, rfl⟩ := List.append_of_mem (list.reach_iff.mp on)
      cases front using List.reverseRecOn with
      | nil => exact absurd list.head_eq.symm other
      | append_singleton front before =>
        rw [List.append_assoc, List.singleton_append] at list mirrored
        have link : h.prevAt x = before :=
          mirrored before x (follows_iff.mpr ⟨front, back, rfl⟩)
        rw [link]
        exact ⟨list.reach_iff.mpr (by simp), list.next_eq⟩

/-- The heap is in order and its links back are right in every state of such a run. -/
theorem mirror_run_tidy (run : MirrorRun sys s) :
    ∃ free, Tidy sys s.heap s.live free ∧ Mirrored s.heap.prevAt free := by
  induction run with
  | start mem => exact ⟨[], Tidy.initial sys mem, mirrored_nil⟩
  | client _ writes ih =>
    obtain ⟨free, tidy, mirrored⟩ := ih
    exact ⟨free, client_tidy tidy writes, client_mirrored tidy mirrored writes⟩
  | call _ mirrors step ih =>
    obtain ⟨free, tidy, mirrored⟩ := ih
    have keeps := mirrors.2 free tidy.chain
    have clean := keeps.clean mirrored
    obtain ⟨free', tidy', -⟩ := step_tidy tidy mirrors.1 clean step
    obtain ⟨free'', list, exact_⟩ := step_mirrored tidy mirrored mirrors.1 clean step
    obtain rfl := chain_unique tidy'.chain list
    exact ⟨free', tidy', exact_.mpr keeps⟩

theorem mirror_run_links (run : MirrorRun sys s) : LinksMirror s.heap := by
  obtain ⟨free, tidy, mirrored⟩ := mirror_run_tidy run
  exact (linksMirror_iff tidy.chain).mpr mirrored

/-- Three blocks are freed, the last one first on the list, and the one in the middle of
the list is split. -/
theorem mirror_run_links_reached : ∃ s : State, s.live.length = 4 ∧
    s.heap.nextAt (s.heap.nextAt s.heap.head) ≠ 0 ∧ LinksMirror s.heap := by
  have ends : (playScript pagedSystem Call.checkMirrors 64 freshState
      [.kumalloc 56, .kumalloc 8, .kumalloc 120, .kumalloc 8, .kumalloc 56, .kumalloc 8,
        .kufree 65544, .kufree 65624, .kufree 65768, .kumalloc 72]).any (fun s =>
          s.live.length = 4 ∧ s.heap.nextAt (s.heap.nextAt s.heap.head) ≠ 0) = true := by
    decide +kernel
  obtain ⟨s, run, shape⟩ := mirror_of_script ends
  obtain ⟨live, third⟩ := of_decide_eq_true shape
  exact ⟨s, live, third, mirror_run_links run⟩

/-- The head is split with a node behind it. Every call is clean, and what the client has
is as it should be. -/
theorem valid_run_loses_prev : ∃ s, ValidRun pagedSystem s ∧ ¬ LinksMirror s.heap := by
  have ends : (playScript pagedSystem Call.checkClean 64 freshState
      [.kumalloc 56, .kumalloc 8, .kumalloc 56, .kumalloc 8, .kufree 65544, .kufree 65624,
        .kumalloc 24]).any (fun s =>
      let second := s.heap.nextAt s.heap.head
      s.heap.head ≠ 0 ∧ second ≠ 0 ∧ s.heap.prevAt second ≠ s.heap.head) = true := by
    decide +kernel
  obtain ⟨s, run, shape⟩ := clean_of_script ends
  simp only [decide_eq_true_eq] at shape
  obtain ⟨first, second, other⟩ := shape
  exact ⟨s, run.valid, fun links => other (links.mirror _ _ (.start first) rfl second)⟩

/-- The first clean call that does not meet the condition leaves a wrong link back. -/
theorem mirror_run_step_iff (run : MirrorRun sys s) (clean : call.Plain ∧ call.Clean s)
    (step : Step sys s call s') : LinksMirror s'.heap ↔ call.Mirrors s := by
  obtain ⟨free, tidy, mirrored⟩ := mirror_run_tidy run
  obtain ⟨free', list, exact_⟩ :=
    step_mirrored tidy mirrored clean.1 (clean.2 free tidy.chain) step
  rw [linksMirror_iff list, exact_]
  constructor
  · intro keeps nodes other
    exact chain_unique tidy.chain other ▸ keeps
  · exact fun mirrors => mirrors free tidy.chain

end

end Comp304.Alloc
