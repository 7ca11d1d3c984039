import Mathlib.Data.List.Find
import Comp304.Alloc.FirstFit
import Comp304.Alloc.Trim

/-! Sizes are `size_t`, but the difference of a split and the sums of the merges
go through `int`. What is recorded is right exactly while the difference, or the
sum, is below 2^31: from there on a block is handed out whole, its remainder
shrinks, or a merged block has a size near 2^64. -/
namespace Comp304.Alloc
open Library.Budget Library.ByteMemory Library.Lp64 Library.Extents Library.LinkedChain Heap

/-- The reused block is split exactly when it is larger than what is handed out,
and the remainder's size is what is left. A split puts a node that was not
listed, at the end of what is handed out, in the block's place. -/
structure SplitsExactly (h h' : Heap) (nodes front : List Nat) (block total : Nat) : Prop where
  split : (block + total ∉ nodes ∧ h'.linkBehind front = block + total) ↔ total < h.sizeAt block
  remainder : total < h.sizeAt block → h'.sizeAt (block + total) = h.sizeAt block - total

/-- A block that is freed between these listed blocks has one of them as its
neighbour. -/
def Heap.Merges (h : Heap) (nodes : List Nat) (block total : Nat) : Prop :=
  (h.leftOf nodes block).isSome ∨ block + total ∈ nodes

instance (h : Heap) (nodes : List Nat) (block total : Nat) : Decidable (h.Merges nodes block total) :=
  inferInstanceAs (Decidable (_ ∨ _))

/-- Where it and its neighbours begin. -/
def Heap.mergedNode (h : Heap) (nodes : List Nat) (block : Nat) : Nat :=
  (h.leftOf nodes block).getD block

/-- What it and its neighbours add up to. -/
def Heap.mergedTotal (h : Heap) (nodes : List Nat) (block total : Nat) : Nat :=
  (h.leftOf nodes block).elim 0 h.sizeAt + total +
    if block + total ∈ nodes then h.sizeAt (block + total) else 0

/-- The size that is recorded for merged blocks is their sum. -/
def MergesExactly (h h' : Heap) (nodes : List Nat) (block total : Nat) : Prop :=
  h.Merges nodes block total →
    h'.sizeAt (h.mergedNode nodes block) = h.mergedTotal nodes block total

/-- The block is in use: it has its header, and shares no byte with the list. -/
structure InUse (sys : System) (h : Heap) (nodes : List Nat) (block total : Nat) : Prop where
  header : h.sizeAt block = total
  wide : 16 ≤ total
  mapped : h.accessible sys block total = true
  apart : ∀ n ∈ nodes, (h.extentAt n).Apart ⟨block, total⟩

/-- How far a trim of the list has come: of the nodes it has passed these are
still listed. Nothing has changed in any node but its `next`. -/
structure Walked (h k : Heap) (block : Nat) (passed kept rest : List Nat) : Prop where
  list : k.FreeList (kept ++ rest)
  still : kept.Sublist passed
  sizes : ∀ n ∈ passed ++ rest, k.word n = h.word n
  prevs : ∀ n ∈ passed ++ rest, k.word (n + 16) = h.word (n + 16)
  header : k.word block = h.word block

section
variable {sys : System} {h h' g k l : Heap} {nodes front back : List Nat} {block total value : Nat}

/-! ### The split -/

/-- The remainder is in the block's place unless its own `prev` was written over
the link to it: in the node before the block, right behind eight bytes of
remainder. -/
theorem Cut.link_iff (linked : WellLinked sys h (front ++ block :: back))
    (cut : Cut h h' front block back total value) :
    h'.linkBehind front = block + total ↔ ∀ p ∈ front.getLast?, p ≠ block + total + 8 := by
  have leads := linkBehind_eq linked.list
  cases List.eq_nil_or_concat' front with
  | inl empty =>
    subst empty
    have head : h'.linkBehind [] = block + total := cut.head.trans (if_pos leads)
    simp [head]
  | inr split =>
    obtain ⟨front, p, rfl⟩ := split
    have link := cut.links p (by simp)
    rw [getLast_remainderPrev] at link
    simp only [linkBehind, List.getLast?_append_cons, List.getLast?_singleton, Option.mem_def,
      Option.some.injEq, forall_eq'] at leads ⊢
    rw [← word_next, link]
    split
    · next here => exact ⟨fun same => by omega, fun other => absurd here other⟩
    · next other => exact ⟨fun _ => other, fun _ => if_pos leads⟩

/-- The reuse path splits exactly, and with the exact remainder, while what is
left is an `int` and the remainder's node does not hide it. -/
theorem reuseBlock_splits_iff (linked : WellLinked sys h (front ++ block :: back))
    (wide : 16 ≤ total) (aligned : total % 8 = 0) (fits : total ≤ h.word block)
    (ran : reuseBlock sys rounds h block total = .ok h') :
    SplitsExactly h h' (front ++ block :: back) front block total ↔
      h.sizeAt block - total < 2 ^ 31 ∧
        (total < h.sizeAt block → ∀ p ∈ front.getLast?, p ≠ block + total + 8) := by
  have bounds := linked.node_bounds (n := block) (by simp)
  by_cases more : total < h.word block
  · have more' : total < h.sizeAt block := more
    have outside : block + total ∉ front ++ block :: back := fun hit => by
      have apart := linked.node_apart hit (m := block) (by simp) (by omega)
      have wide := (linked.node_bounds hit).2.2.1
      omega
    by_cases positive : 0 < subInt (toInt (h.word block)) (toInt total)
    · obtain ⟨-, -, cut⟩ := reuseBlock_cut linked wide aligned more positive ran
      have size : h'.sizeAt (block + total) = h.sizeAt block - total ↔
          h.sizeAt block - total < 2 ^ 31 := by
        have recorded : h'.sizeAt (block + total) = toSize (toInt (h.sizeAt block - total)) :=
          subInt_toInt fits ▸ cut.size
        rw [recorded]
        exact toSize_toInt_iff (show h.word block - total < _ by omega)
      constructor
      · intro exact
        exact ⟨size.mp (exact.remainder more'), fun _ =>
          (cut.link_iff linked).mp (exact.split.mpr more').2⟩
      · rintro ⟨small, clear⟩
        exact ⟨⟨fun _ => more', fun _ => ⟨outside, (cut.link_iff linked).mpr (clear more')⟩⟩,
          fun _ => size.mpr small⟩
    · obtain ⟨-, ⟨hit, -⟩ | ⟨clear, -, unlinked⟩⟩ :=
        reuseBlock_unlinked linked wide aligned fits positive ran
      · exact absurd (List.mem_append_left _ hit) outside
      · constructor
        · intro exact
          have link := (unlinked.link linked clear).symm.trans (exact.split.mpr more').2
          have behind : block + total ∉ back := fun hit => outside (by simp [hit])
          exact absurd link (linked.next_ne (by omega) behind)
        · rintro ⟨small, -⟩
          rw [sizeDiff_small fits small] at positive
          omega
  · have none : ¬ total < h.sizeAt block := more
    have exact : h.word block - total = 0 := by omega
    have spent : ¬ 0 < subInt (toInt (h.word block)) (toInt total) := by
      rw [sizeDiff_small fits (by omega), exact]
      decide
    have whole : ¬ (block + total ∉ front ++ block :: back ∧
        h'.linkBehind front = block + total) := by
      rintro ⟨outside, link⟩
      obtain ⟨-, ⟨hit, -⟩ | ⟨clear, -, unlinked⟩⟩ :=
        reuseBlock_unlinked linked wide aligned fits spent ran
      · exact outside (List.mem_append_left _ hit)
      · have behind : block + total ∉ back := fun hit => outside (by simp [hit])
        exact linked.next_ne (by omega) behind ((unlinked.link linked clear).symm.trans link)
    constructor
    · exact fun _ => ⟨show h.word block - total < 2 ^ 31 by omega, fun more => absurd more none⟩
    · exact fun _ => ⟨iff_of_false whole none, fun more => absurd more none⟩

theorem kumalloc_splits_iff (linked : WellLinked sys h (front ++ block :: back)) (positive : 0 < size)
    (smaller : ∀ n ∈ front, h.sizeAt n < exactTotal size) (fits : exactTotal size ≤ h.sizeAt block)
    (ran : kumalloc sys rounds h size = .ok (p, h')) :
    SplitsExactly h h' (front ++ block :: back) front block (exactTotal size) ↔
      h.sizeAt block - exactTotal size < 2 ^ 31 ∧
        (exactTotal size < h.sizeAt block →
          ∀ p ∈ front.getLast?, p ≠ block + exactTotal size + 8) := by
  have aligned : exactTotal size % 8 = 0 := Nat.mul_mod_left _ _
  have wide : 16 ≤ exactTotal size := by
    unfold exactTotal
    omega
  obtain ⟨g, reused, last⟩ := bind_eq_ok.mp
    ((kumalloc_reuses linked positive smaller fits).returned ran)
  cases last
  exact reuseBlock_splits_iff linked wide aligned fits reused

/-! ### The list after the trim -/

theorem InUse.bounds (linked : WellLinked sys h nodes) (used : InUse sys h nodes block total) :
    4096 ≤ block ∧ block + total ≤ 2 ^ 63 ∧
      ∀ n ∈ nodes, n + h.word n ≤ block ∨ block + total ≤ n := by
  have wide := used.wide
  have access := used.mapped
  rw [accessible_iff] at access
  have low := (sys.user_mapped _ _ (access 0 (by omega))).1
  have high := (sys.user_mapped _ _ (access (total - 1) (by omega))).2
  refine ⟨by omega, by omega, fun n member => ?_⟩
  have positive : 0 < (h.extentAt n).len := by
    have wideN := linked.wide n member
    exact show 0 < h.sizeAt n by omega
  exact (Extent.apart_iff positive (show 0 < total by omega)).mp (used.apart n member)

/-- A change of one node's `next` is all that a step of the trim writes. -/
theorem Walked.put (linked : WellLinked sys h (passed ++ rest))
    (used : InUse sys h (passed ++ rest) block total)
    (walked : Walked h k block passed kept rest) (listed : p ∈ passed) (same : l.mem = k.mem)
    (list : (l.put (p + 8) value).FreeList (kept' ++ rest')) (still : kept'.Sublist passed')
    (whole : passed' ++ rest' = passed ++ rest) :
    Walked h (l.put (p + 8) value) block passed' kept' rest' := by
  have word : ∀ a, l.word a = k.word a := fun a => word_congr fun x _ _ => congrFun same x
  have member : p ∈ passed ++ rest := List.mem_append_left _ listed
  have fields : ∀ n ∈ passed ++ rest, n = p ∨ n + 24 ≤ p ∨ p + 24 ≤ n := by
    intro n memberN
    by_cases here : n = p
    · exact Or.inl here
    · exact Or.inr (linked.fields_apart memberN member here)
  have clear := (used.bounds linked).2.2 p member
  have wide := (linked.node_bounds member).2.2.1
  have wideB := used.wide
  refine ⟨list, still, fun n inWhole => ?_, fun n inWhole => ?_, ?_⟩
  · rw [whole] at inWhole
    have apart := fields n inWhole
    rw [word_put_apart (by omega), word]
    exact walked.sizes n inWhole
  · rw [whole] at inWhole
    have apart := fields n inWhole
    rw [word_put_apart (by omega), word]
    exact walked.prevs n inWhole
  · rw [word_put_apart (by omega), word]
    exact walked.header

/-- A node that is not trimmed stays. -/
theorem Walked.pass (walked : Walked h k block passed kept (node :: rest)) :
    Walked h k block (passed ++ [node]) (kept ++ [node]) rest := by
  have whole : passed ++ node :: rest = (passed ++ [node]) ++ rest := by simp
  have list := walked.list
  have sizes := walked.sizes
  have prevs := walked.prevs
  rw [whole] at sizes prevs
  rw [show kept ++ node :: rest = (kept ++ [node]) ++ rest by simp] at list
  exact ⟨list, walked.still.append (List.Sublist.refl _), sizes, prevs, walked.header⟩

/-- The store that is to unlink a node takes it off the list, unless the node
before it has been trimmed too: then the store goes there. -/
theorem Walked.unlink (linked : WellLinked sys h ((before ++ [p]) ++ node :: rest))
    (used : InUse sys h ((before ++ [p]) ++ node :: rest) block total)
    (walked : Walked h k block (before ++ [p]) kept (node :: rest)) (same : l.mem = k.mem)
    (head : l.head = k.head) (first : node ≠ k.head) :
    ∃ kept', Walked h (l.put (p + 8) (k.word (node + 8))) block ((before ++ [p]) ++ [node])
      kept' rest := by
  have word : ∀ a, l.word a = k.word a := fun a => word_congr fun x _ _ => congrFun same x
  have whole : ((before ++ [p]) ++ [node]) ++ rest = (before ++ [p]) ++ node :: rest := by simp
  have shape : (before ++ [p]) ++ node :: rest = before ++ p :: node :: rest := by simp
  have listed : p ∈ (before ++ [p]) ++ node :: rest := by simp
  have valid := word_lt k (node + 8)
  have clear : ∀ n ∈ (before ++ [p]) ++ node :: rest, n ≠ p →
      (l.put (p + 8) (k.word (node + 8))).word (n + 8) = k.word (n + 8) := by
    intro n member other
    have apart := linked.fields_apart member listed other
    rw [word_put_apart (by omega), word]
  have distinct := linked.list.nodup
  rw [shape, List.nodup_append] at distinct
  obtain ⟨-, later, earlier⟩ := distinct
  have behind : ∀ n ∈ node :: rest, n ≠ p := by
    rintro n member rfl
    exact (List.nodup_cons.mp later).1 member
  obtain ⟨front, tail, rfl, some, last⟩ := List.sublist_append_iff.mp walked.still
  have among : ∀ n ∈ front, n ∈ (before ++ [p]) ++ node :: rest ∧ n ≠ p := fun n member =>
    ⟨by simp [some.subset member], earlier n (some.subset member) p (by simp)⟩
  cases List.sublist_singleton.mp last with
  | inl trimmed =>
    subst trimmed
    refine ⟨front ++ [node], walked.put linked used (by simp) same ?_ ?_ whole⟩
    · have list : k.FreeList (front ++ node :: rest) := by simpa using walked.list
      rw [FreeList, put_head, head, List.append_assoc]
      refine chain_congr (fun n member => ?_) list
      cases List.mem_append.mp member with
      | inl inFront => exact clear n (among n inFront).1 (among n inFront).2
      | inr inRest => exact clear n (List.mem_append_right _ inRest) (behind n inRest)
    · exact (some.trans (List.sublist_append_left _ _)).append (List.Sublist.refl _)
  | inr stays =>
    subst stays
    have list : Chain 0 k.nextAt k.head ((front ++ [p]) ++ node :: rest) := walked.list
    have next : k.FreeList (front ++ p :: node :: rest) := by simpa using walked.list
    refine ⟨front ++ [p], walked.put linked used (by simp) same ?_ ?_ whole⟩
    · refine Chain.redirect list ?_ (fun n member => ?_) (chain_congr (fun n member => ?_)
        list.next_chain)
      · rw [put_head, head, if_neg (Ne.symm first)]
      · cases List.mem_append.mp member with
        | inl inFront =>
          have other : k.nextAt n ≠ node := fun leads =>
            (among n inFront).2 (Chain.before_unique next (by simp [inFront]) leads)
          rw [if_neg other]
          exact clear n (among n inFront).1 (among n inFront).2
        | inr last =>
          have here : n = p := by simpa using last
          rw [here, if_pos (Chain.next_eq next)]
          exact word_put_same valid
      · exact clear n (by simp [member]) (behind n (by simp [member]))
    · exact (some.append (List.Sublist.refl _)).trans (List.sublist_append_left _ _)

/-- A trimmed head gives its place to the node behind it. -/
theorem Walked.unhead (walked : Walked h k block passed kept (node :: rest)) (same : l.mem = k.mem)
    (first : node = k.head) :
    Walked h (l.setHead (k.word (node + 8))) block (passed ++ [node]) [] rest := by
  have words : ∀ a, (l.setHead (k.word (node + 8))).word a = k.word a := fun a => by
    rw [setHead_word]
    exact word_congr fun x _ _ => congrFun same x
  have whole : (passed ++ [node]) ++ rest = passed ++ node :: rest := by simp
  have alone : kept = [] := by
    cases kept with
    | nil => rfl
    | cons other kept =>
      have front : k.head = other := Chain.head_eq walked.list
      have distinct := Chain.nodup walked.list
      simp [first, front] at distinct
  subst alone
  have list : Chain 0 k.nextAt (k.word (node + 8)) rest := Chain.next_chain walked.list
  refine ⟨?_, List.nil_sublist _, fun n member => ?_, fun n member => ?_, ?_⟩
  · rw [List.nil_append, FreeList, setHead_head]
    exact chain_congr (fun n _ => words (n + 8)) list
  · rw [words]
    exact walked.sizes n (whole ▸ member)
  · rw [words]
    exact walked.prevs n (whole ▸ member)
  · rw [words]
    exact walked.header

/-- A trimmed node is off the list, unless the node before it was trimmed too and
takes the store that was to unlink it. -/
theorem takePlace_walks (linked : WellLinked sys h (passed ++ node :: rest))
    (used : InUse sys h (passed ++ node :: rest) block total)
    (walked : Walked h k block passed kept (node :: rest)) (same : l.mem = k.mem)
    (head : l.head = k.head) (ran : takePlace sys l (k.word (node + 8)) node = .ok h') :
    ∃ kept', Walked h h' block (passed ++ [node]) kept' rest ∧
      h'.word (node + 8) = k.word (node + 8) := by
  have word : ∀ a, l.word a = k.word a := fun a => word_congr fun x _ _ => congrFun same x
  rcases takePlace_cases ran with ⟨first, rfl⟩ | ⟨later, rfl⟩
  · refine ⟨[], walked.unhead same (first.trans head), ?_⟩
    rw [setHead_word, word]
  · cases List.eq_nil_or_concat' passed with
    | inl empty =>
      subst empty
      have none := List.sublist_nil.mp walked.still
      subst none
      exact absurd (head.trans (Chain.head_eq walked.list)).symm later
    | inr split =>
      obtain ⟨before, p, rfl⟩ := split
      have shape : (before ++ [p]) ++ node :: rest = before ++ p :: node :: rest := by simp
      have prev : l.word (node + 16) = p := by
        rw [word, walked.prevs node (by simp)]
        exact linked.mirrored p node (shape ▸ follows_iff.mpr ⟨before, rest, rfl⟩)
      rw [prev]
      have listed : p ∈ (before ++ [p]) ++ node :: rest := by simp
      have distinct := linked.list.nodup
      have other : node ≠ p := by
        rintro rfl
        simp [shape, List.nodup_append] at distinct
      have next : (l.put (p + 8) (k.word (node + 8))).word (node + 8) = k.word (node + 8) := by
        have apart := linked.fields_apart (n := node) (by simp) listed other
        rw [word_put_apart (by omega), word]
      obtain ⟨kept', walked'⟩ := walked.unlink linked used same head (head ▸ later)
      exact ⟨kept', walked', next⟩

/-- One round of the trim. -/
theorem trimBlock_walks (linked : WellLinked sys h (passed ++ node :: rest))
    (used : InUse sys h (passed ++ node :: rest) block total)
    (walked : Walked h k block passed kept (node :: rest))
    (ran : trimBlock sys k node size = .ok h') :
    ∃ kept', Walked h h' block (passed ++ [node]) kept' rest ∧
      h'.word (node + 8) = k.word (node + 8) := by
  unfold trimBlock at ran
  split at ran
  · have taken := giveBack_takes ran
    obtain ⟨mem, head⟩ := lowerEnd_frame sys k node size
    have next : (lowerEnd sys k node size).word (node + 8) = k.word (node + 8) :=
      word_congr fun x _ _ => congrFun mem x
    rw [next] at taken
    exact takePlace_walks linked used walked mem head taken
  · cases ran
    exact ⟨kept ++ [node], walked.pass, rfl⟩

/-- The trim goes over the whole list. -/
theorem trimLoop_walks (linked : WellLinked sys h (passed ++ rest))
    (used : InUse sys h (passed ++ rest) block total) (walked : Walked h k block passed kept rest)
    (chain : Chain 0 k.nextAt temp rest) (ran : trimLoop sys rounds k temp = .ok g) :
    ∃ kept', Walked h g block (passed ++ rest) kept' [] := by
  induction rest generalizing rounds k temp passed kept with
  | nil =>
    cases rounds with
    | zero => simp [trimLoop] at ran
    | succ rounds =>
      simp only [trimLoop, chain_nil.mp chain, if_true] at ran
      cases ran
      exact ⟨kept, (List.append_nil passed).symm ▸ walked⟩
  | cons node rest ih =>
    obtain ⟨rfl, nonnull, after⟩ := chain_cons.mp chain
    cases rounds with
    | zero => simp [trimLoop] at ran
    | succ rounds =>
      have whole : passed ++ temp :: rest = (passed ++ [temp]) ++ rest := by simp
      simp only [trimLoop, if_neg nonnull, getSize, getNext, bind_eq_ok, load_eq_ok, and_assoc,
        exists_and_left, exists_eq_left] at ran
      obtain ⟨-, k', trimmed, -, ran⟩ := ran
      obtain ⟨kept', walked', next⟩ := trimBlock_walks linked used walked trimmed
      obtain ⟨middle, -, -, after'⟩ := chain_append.mp walked'.list
      have follower : k'.word (temp + 8) = middle := next.trans (after.start_unique after')
      rw [whole] at linked used ⊢
      exact ih linked used walked' after' (follower ▸ ran)

/-! ### The searches that return -/

theorem mergeLoop_ok (ends : ∀ n ∈ nodes, n + g.word n < 2 ^ 64) (size : g.word block = total)
    (stop : block + total < 2 ^ 64) (chain : Chain 0 g.nextAt temp nodes)
    (ran : mergeLoop sys scans g block rounds temp = .ok k) :
    (match nodes.find? fun n => Touches g block total n with
      | none => insertBlock sys g block
      | some n =>
        if n + g.sizeAt n = block then mergeLeft sys g block n (block + total) scans g.head
        else mergeRight sys g block n scans g.head) = .ok k := by
  induction nodes generalizing rounds temp with
  | nil =>
    cases rounds with
    | zero => simp [mergeLoop] at ran
    | succ rounds => simpa [mergeLoop, chain_nil.mp chain] using ran
  | cons node nodes ih =>
    obtain ⟨rfl, nonnull, rest⟩ := chain_cons.mp chain
    cases rounds with
    | zero => simp [mergeLoop] at ran
    | succ rounds =>
      have end1 : add temp (g.word temp) = temp + g.word temp := add_of_lt (ends temp (by simp))
      have end2 : add block total = block + total := add_of_lt stop
      simp only [mergeLoop, if_neg nonnull, getSize, bind_eq_ok, load_eq_ok, and_assoc,
        exists_and_left, exists_eq_left, size, end1, end2] at ran
      obtain ⟨-, -, ran⟩ := ran
      rw [List.find?_cons]
      by_cases left : temp + g.word temp = block
      · have touches : Touches g block total temp := Or.inl left
        have left' : temp + g.sizeAt temp = block := left
        simpa only [if_pos left, decide_eq_true touches, if_pos left'] using ran
      · have left' : ¬ temp + g.sizeAt temp = block := left
        by_cases right : block + total = temp
        · have touches : Touches g block total temp := Or.inr right
          simpa only [if_neg left, if_pos right, decide_eq_true touches, if_neg left'] using ran
        · have passed : ¬ Touches g block total temp := by
            rintro (touch | touch)
            · exact left touch
            · exact right touch
          simp only [if_neg left, if_neg right, getNext, bind_eq_ok, load_eq_ok, and_assoc,
            exists_and_left, exists_eq_left] at ran
          simp only [decide_eq_false passed]
          exact ih (fun n member => ends n (by simp [member])) rest ran.2

theorem mergeLeft_ok (nonempty : nodes ≠ []) (chain : Chain 0 g.nextAt temp2 nodes)
    (ran : mergeLeft sys g block temp end2 rounds temp2 = .ok k) :
    (if end2 ∈ nodes then mergeThree sys g temp block end2 else mergeTwo sys g block temp) =
      .ok k := by
  induction nodes generalizing rounds temp2 with
  | nil => exact absurd rfl nonempty
  | cons node nodes ih =>
    obtain ⟨rfl, -, rest⟩ := chain_cons.mp chain
    cases rounds with
    | zero => simp [mergeLeft] at ran
    | succ rounds =>
      simp only [mergeLeft] at ran
      by_cases here : temp2 = end2
      · subst here
        simpa using ran
      · simp only [if_neg here, getNext, bind_eq_ok, load_eq_ok, and_assoc, exists_and_left,
          exists_eq_left] at ran
        obtain ⟨-, ran⟩ := ran
        simp only [List.mem_cons, Ne.symm here, false_or]
        cases nodes with
        | nil =>
          have last : g.word (temp2 + 8) = 0 := chain_nil.mp rest
          simpa [last] using ran
        | cons second nodes =>
          have more : g.word (temp2 + 8) ≠ 0 := rest.start_ne_null (by simp)
          rw [if_neg more] at ran
          exact ih (by simp) rest ran

theorem mergeRight_ok (ends : ∀ n ∈ nodes, n + g.word n < 2 ^ 64)
    (chain : Chain 0 g.nextAt temp2 nodes)
    (ran : mergeRight sys g block temp rounds temp2 = .ok k) :
    (match g.leftOf nodes block with
      | none => replaceRight sys g block temp
      | some left => mergeThree sys g left block temp) = .ok k := by
  induction nodes generalizing rounds temp2 with
  | nil =>
    cases rounds with
    | zero => simp [mergeRight] at ran
    | succ rounds => simpa [mergeRight, chain_nil.mp chain, leftOf] using ran
  | cons node nodes ih =>
    obtain ⟨rfl, nonnull, rest⟩ := chain_cons.mp chain
    cases rounds with
    | zero => simp [mergeRight] at ran
    | succ rounds =>
      have stop : add temp2 (g.word temp2) = temp2 + g.word temp2 := add_of_lt (ends temp2 (by simp))
      simp only [mergeRight, if_neg nonnull, getSize, bind_eq_ok, load_eq_ok, and_assoc,
        exists_and_left, exists_eq_left, stop] at ran
      obtain ⟨-, ran⟩ := ran
      rw [leftOf, List.find?_cons]
      by_cases left : temp2 + g.word temp2 = block
      · have left' : temp2 + g.sizeAt temp2 = block := left
        simpa only [if_pos left.symm, decide_eq_true left'] using ran
      · have left' : ¬ temp2 + g.sizeAt temp2 = block := left
        simp only [if_neg (Ne.symm left), getNext, bind_eq_ok, load_eq_ok, and_assoc,
          exists_and_left, exists_eq_left] at ran
        simp only [decide_eq_false left']
        exact ih (fun n member => ends n (by simp [member])) rest ran.2

theorem addFree_ok (ends : ∀ n ∈ nodes, n + g.word n < 2 ^ 64) (size : g.word block = total)
    (stop : block + total < 2 ^ 64) (list : g.FreeList nodes)
    (ran : addFree sys rounds g block = .ok k) : mergePlan sys g nodes block total = .ok k := by
  by_cases empty : nodes = []
  · subst empty
    have headless : g.head = 0 := chain_nil.mp list
    simpa only [addFree, if_pos headless, mergePlan, if_true] using ran
  · have some_head : g.head ≠ 0 := Chain.start_ne_null list empty
    simp only [addFree, if_neg some_head] at ran
    have searched := mergeLoop_ok ends size stop list ran
    rw [mergePlan_searched empty]
    cases found : nodes.find? fun n => Touches g block total n with
    | none =>
      rw [found] at searched
      exact searched
    | some n =>
      rw [found] at searched
      by_cases left : n + g.sizeAt n = block
      · simp only [if_pos left] at searched ⊢
        exact mergeLeft_ok empty list searched
      · simp only [if_neg left] at searched ⊢
        exact mergeRight_ok ends list searched

/-! ### The pointer writes -/

/-- Behind a node of the trimmed list, unless it is the first, is the node its
`prev` names, still listed or not. -/
theorem Walked.prev_mem (linked : WellLinked sys h nodes) (walked : Walked h g block nodes kept [])
    (listed : node ∈ kept) (later : node ≠ g.head) : g.word (node + 16) ∈ nodes := by
  have member := walked.still.subset listed
  obtain ⟨front, back, rfl⟩ := List.append_of_mem member
  have same := walked.prevs node (by simp)
  cases List.eq_nil_or_concat' front with
  | inl empty =>
    subst empty
    have distinct := List.nodup_cons.mp linked.list.nodup
    cases walked.still with
    | cons _ shorter => exact absurd (shorter.subset listed) distinct.1
    | cons_cons _ shorter => exact absurd (Chain.head_eq walked.list).symm later
  | inr split =>
    obtain ⟨front, p, rfl⟩ := split
    have shape : (front ++ [p]) ++ node :: back = front ++ p :: node :: back := by simp
    have prev : h.word (node + 16) = p :=
      linked.mirrored p node (shape ▸ follows_iff.mpr ⟨front, back, rfl⟩)
    rw [same, prev]
    simp

/-- None of the stores that take a node off the list for another one reaches the
size of that other one. -/
theorem absorb_size (linked : WellLinked sys h nodes) (walked : Walked h g block nodes kept [])
    (listedK : keep ∈ kept) (listedD : drop ∈ kept) (other : keep ≠ drop)
    (ran : absorb sys (g.put keep value) keep drop = .ok k) :
    k.word keep = (g.put keep value).word keep := by
  have list : g.FreeList kept := List.append_nil kept ▸ walked.list
  have memberK := walked.still.subset listedK
  have memberD := walked.still.subset listedD
  have clear : ∀ n ∈ nodes, n = keep ∨ n + 24 ≤ keep ∨ keep + 24 ≤ n := by
    intro n member
    by_cases here : n = keep
    · exact Or.inl here
    · exact Or.inr (linked.fields_apart member memberK here)
  have apart := linked.fields_apart memberK memberD other
  obtain ⟨h₁, first, ran⟩ := bind_eq_ok.mp ran
  obtain ⟨h₂, second, ran⟩ := bind_eq_ok.mp ran
  obtain ⟨h₃, third, fourth⟩ := bind_eq_ok.mp ran
  have words₁ : h₁.word keep = (g.put keep value).word keep ∧ h₁.word (drop + 8) = g.word (drop + 8) ∧
      h₁.word (drop + 16) = g.word (drop + 16) ∧ h₁.head = g.head := by
    rcases takeNext_cases first with rfl | rfl
    · exact ⟨rfl, word_put_apart (by omega), word_put_apart (by omega), rfl⟩
    · refine ⟨word_put_apart (by omega), ?_, ?_, rfl⟩
      · rw [word_put_apart (by omega), word_put_apart (by omega)]
      · rw [word_put_apart (by omega), word_put_apart (by omega)]
  obtain ⟨size₁, next₁, prev₁, head₁⟩ := words₁
  have words₂ : h₂.word keep = h₁.word keep ∧ h₂.word (drop + 16) = g.word (drop + 16) ∧
      h₂.head = g.head := by
    rcases takePrev_cases second with rfl | ⟨more, rfl⟩
    · exact ⟨rfl, prev₁, head₁⟩
    · rw [next₁] at more ⊢
      have behind := (Chain.next_mem list listedD).resolve_left more
      have clear' := clear _ (walked.still.subset behind)
      have apart' := linked.fields_apart (walked.still.subset behind) memberD
        (Chain.no_loop list listedD)
      rw [← word_next] at clear' apart'
      exact ⟨word_put_apart (by omega), (word_put_apart (by omega)).trans prev₁, head₁⟩
  obtain ⟨size₂, prev₂, head₂⟩ := words₂
  have words₃ : h₃.word keep = h₂.word keep ∧ (h₃.head = keep ∨ h₃.head = g.head) := by
    rcases takePlace_cases third with ⟨-, rfl⟩ | ⟨later, rfl⟩
    · exact ⟨setHead_word, Or.inl rfl⟩
    · rw [prev₂]
      have clear' := clear _ (walked.prev_mem linked listedD (head₂ ▸ later))
      exact ⟨word_put_apart (by omega), Or.inr head₂⟩
  obtain ⟨size₃, head₃⟩ := words₃
  have size : k.word keep = h₃.word keep := by
    rcases cutSelfLoop_cases fourth with rfl | rfl
    · rfl
    · have clear' : h₃.head = keep ∨ h₃.head + 24 ≤ keep ∨ keep + 24 ≤ h₃.head := by
        rcases head₃ with here | there
        · exact Or.inl here
        · rw [there]
          obtain ⟨start, rest, rfl⟩ := List.exists_cons_of_ne_nil (List.ne_nil_of_mem listedD)
          rw [Chain.head_eq list]
          exact clear start (walked.still.subset List.mem_cons_self)
      exact word_put_apart (by omega)
  rw [size, size₃, size₂, size₁]

/-- Nor does any store that puts a freed block in the place of its right neighbour
reach the size of it. -/
theorem replaceRight_size (linked : WellLinked sys h nodes) (used : InUse sys h nodes block total)
    (walked : Walked h g block nodes kept []) (listed : block + total ∈ kept)
    (ran : replaceRight sys g block (block + total) = .ok k) :
    k.word block = mergedSize total (g.word (block + total)) := by
  have header : g.word block = total := walked.header.trans used.header
  have wide := used.wide
  have small : mergedSize total (g.word (block + total)) < 2 ^ 64 := toSize_lt _
  simp only [replaceRight, getSize, getNext, getPrev, setSize, setNext, setPrev, bind_eq_ok,
    load_eq_ok, store_eq_ok, and_assoc, exists_and_left, exists_eq_left, header] at ran
  obtain ⟨-, -, -, -, -, -, -, ran⟩ := ran
  generalize mergedSize total (g.word (block + total)) = whole at ran small
  have size : ∀ next prev, (((g.put block whole).put (block + 8) next).put (block + 16) prev).word
      block = whole := by
    intro next prev
    rw [word_put_apart (by omega), word_put_apart (by omega), word_put_same small]
  have prev : ∀ next prev, (((g.put block whole).put (block + 8) next).put (block + 16) prev).word
      (block + total + 16) = g.word (block + total + 16) := by
    intro next prev
    rw [word_put_apart (by omega), word_put_apart (by omega), word_put_apart (by omega)]
  rcases takePlace_cases ran with ⟨-, rfl⟩ | ⟨later, rfl⟩
  · rw [setHead_word, size]
  · have behind := walked.prev_mem linked listed later
    have apart := (used.bounds linked).2.2 _ behind
    have wideP := (linked.node_bounds behind).2.2.1
    rw [prev, word_put_apart (by omega), size]

/-- The merges record the sum exactly when it is an `int`. -/
theorem mergePlan_exact_iff (linked : WellLinked sys h nodes) (used : InUse sys h nodes block total)
    (walked : Walked h g block nodes kept []) (ran : mergePlan sys g kept block total = .ok k) :
    MergesExactly h k kept block total ↔
      (h.Merges kept block total → h.mergedTotal kept block total < 2 ^ 31) := by
  have header : g.word block = total := walked.header.trans used.header
  have bounds := used.bounds linked
  have members : ∀ n ∈ kept, n ∈ nodes := fun n => (walked.still.subset ·)
  have sizes : ∀ n ∈ kept, g.word n = h.word n := fun n member =>
    walked.sizes n (by simp [members n member])
  have same : g.leftOf kept block = h.leftOf kept block :=
    List.find?_congr fun n member => by
      have size : g.sizeAt n = h.sizeAt n := sizes n member
      rw [size]
  refine imp_congr_right fun merges => ?_
  cases left : h.leftOf kept block with
  | none =>
    have right : block + total ∈ kept := merges.resolve_left (by simp [left])
    have nonempty : kept ≠ [] := List.ne_nil_of_mem right
    simp only [mergePlan, if_neg nonempty, same, left, decide_eq_true right] at ran
    have recorded : k.sizeAt block = mergedSize total (h.sizeAt (block + total)) :=
      (replaceRight_size linked used walked right ran).trans (congrArg _ (sizes _ right))
    have boundsR := linked.node_bounds (members _ right)
    simp only [mergedNode, mergedTotal, left, if_pos right, Option.getD_none, Option.elim_none,
      recorded, Nat.zero_add]
    exact mergedSize_iff (show total + h.word (block + total) < _ by omega)
  | some l =>
    obtain ⟨listed, ends⟩ := leftOf_some left
    have nonempty : kept ≠ [] := List.ne_nil_of_mem listed
    by_cases right : block + total ∈ kept
    · simp only [mergePlan, if_neg nonempty, same, left, decide_eq_true right, mergeThree, getSize,
        setSize, bind_eq_ok, load_eq_ok, store_eq_ok, and_assoc, exists_and_left, exists_eq_left,
        header, sizes l listed, sizes _ right] at ran
      obtain ⟨-, -, -, -, ran⟩ := ran
      have boundsR := linked.node_bounds (members _ right)
      have wide := used.wide
      have recorded : k.sizeAt l = mergedSize3 (h.sizeAt l) total (h.sizeAt (block + total)) :=
        (absorb_size linked walked listed right (by omega) ran).trans (word_put_same (toSize_lt _))
      simp only [mergedNode, mergedTotal, left, if_pos right, Option.getD_some, Option.elim_some,
        recorded]
      exact mergedSize3_iff (show h.word l + total + h.word (block + total) < _ by omega)
    · simp only [mergePlan, if_neg nonempty, same, left, decide_eq_false right, mergeTwo, getSize,
        setSize, bind_eq_ok, load_eq_ok, store_eq_ok, and_assoc, exists_and_left, exists_eq_left,
        header, sizes l listed] at ran
      obtain ⟨-, -, -, rfl⟩ := ran
      have recorded : (g.put l (mergedSize total (h.word l))).sizeAt l =
          mergedSize total (h.sizeAt l) := word_put_same (toSize_lt _)
      simp only [mergedNode, mergedTotal, left, if_neg right, Option.getD_some, Option.elim_some,
        recorded, Nat.add_zero, Nat.add_comm (h.sizeAt l)]
      exact mergedSize_iff (show total + h.word l < _ by omega)

/-! ### Both calls -/

/-- `kufree` trims the list and merges the block with what is next to it on the
list that is left. -/
theorem kufree_merges_iff (linked : WellLinked sys h nodes) (used : InUse sys h nodes block total)
    (notLast : h.blockEnd ≠ block + total) (ran : kufree sys rounds h (block + 8) = .ok k) :
    ∃ g kept, trimLoop sys rounds h h.head = .ok g ∧ g.FreeList kept ∧ kept.Sublist nodes ∧
      (MergesExactly h k kept block total ↔
        (h.Merges kept block total → h.mergedTotal kept block total < 2 ^ 31)) := by
  obtain ⟨low, high, -⟩ := used.bounds linked
  have header : h.word block = total := used.header
  have wide := used.wide
  have read := accessible_part used.mapped (Nat.le_refl block) (show block + 8 ≤ _ by omega)
  rw [kufree_eq read header (by omega), if_neg notLast] at ran
  obtain ⟨g, trimmed, added⟩ := bind_eq_ok.mp ran
  have whole : WellLinked sys h ([] ++ nodes) := linked
  have nothing : Walked h h block [] [] nodes :=
    ⟨linked.list, List.Sublist.refl _, fun _ _ => rfl, fun _ _ => rfl, rfl⟩
  obtain ⟨kept, walked⟩ := trimLoop_walks whole used nothing linked.list trimmed
  have list : g.FreeList kept := List.append_nil kept ▸ walked.list
  have ends : ∀ n ∈ kept, n + g.word n < 2 ^ 64 := by
    intro n listed
    have member := walked.still.subset listed
    have bounds := linked.node_bounds member
    rw [walked.sizes n (by simpa using member)]
    omega
  have plan := addFree_ok ends (walked.header.trans header) (by omega) list added
  exact ⟨g, kept, trimmed, list, walked.still, mergePlan_exact_iff linked used walked plan⟩

/-- What `kumalloc` records when it reuses a block, and `kufree` when it merges
some, is exact while the difference, or the sum, is below 2^31, and only then; and
a split shows on the list unless the remainder is eight bytes with the node before
the block right behind them. -/
theorem recorded_sizes_iff (linked : WellLinked sys h nodes) :
    (∀ rounds size front block back p h', nodes = front ++ block :: back → 0 < size →
      (∀ n ∈ front, h.sizeAt n < exactTotal size) → exactTotal size ≤ h.sizeAt block →
      kumalloc sys rounds h size = .ok (p, h') →
      (SplitsExactly h h' nodes front block (exactTotal size) ↔
        h.sizeAt block - exactTotal size < 2 ^ 31 ∧
          (exactTotal size < h.sizeAt block →
            ∀ p ∈ front.getLast?, p ≠ block + exactTotal size + 8))) ∧
    (∀ rounds block total k, InUse sys h nodes block total → h.blockEnd ≠ block + total →
      kufree sys rounds h (block + 8) = .ok k →
      ∃ g kept, trimLoop sys rounds h h.head = .ok g ∧ g.FreeList kept ∧ kept.Sublist nodes ∧
        (MergesExactly h k kept block total ↔
          (h.Merges kept block total → h.mergedTotal kept block total < 2 ^ 31))) := by
  constructor
  · rintro rounds size front block back p h' rfl positive smaller fits ran
    exact kumalloc_splits_iff linked positive smaller fits ran
  · intro rounds block total k used notLast ran
    exact kufree_merges_iff linked used notLast ran

/-- A system that grants what is asked for and maps all that a program may use. -/
def roomySystem : System where
  base := 2 ^ 16
  limit := 2 ^ 62
  granted _ := true
  mapped _ address := 4096 ≤ address && address < 2 ^ 63
  base_aligned := region_aligned
  base_above := region_above
  base_le_limit := by decide
  limit_lt := by decide
  heap_mapped brk address low below high := by
    simp only [Bool.and_eq_true, decide_eq_true_eq]
    omega
  user_mapped brk address mapped := by
    simpa only [Bool.and_eq_true, decide_eq_true_eq] using mapped

/-- The heap after three requests, the last two for 40 bytes, once the first block
has been freed. -/
def firstFreed (first : Nat) : Heap :=
  (((⟨fun _ => 0, 65536, 65632 + first, 8064, 73696 + first, 1, 0⟩ : Heap).put 65536 first).put
    (65536 + first) 48).put (65584 + first) 48

theorem firstFreed_fields (wide : 24 ≤ first) (small : first < 2 ^ 62) :
    (firstFreed first).word 65536 = first ∧ (firstFreed first).word 65544 = 0 ∧
      (firstFreed first).word 65552 = 0 ∧ (firstFreed first).word (65536 + first) = 48 := by
  refine ⟨?_, ?_, ?_, ?_⟩
  · simp (disch := omega) only [firstFreed, word_put_apart, word_put_same]
  · simp (disch := omega) only [firstFreed, word_put_apart]
    exact loadBytes_zero _ _
  · simp (disch := omega) only [firstFreed, word_put_apart]
    exact loadBytes_zero _ _
  · simp (disch := omega) only [firstFreed, word_put_apart, word_put_same]

theorem firstFreed_linked (wide : 24 ≤ first) (small : first < 2 ^ 62) :
    WellLinked roomySystem (firstFreed first) [65536] := by
  obtain ⟨size, next, prev, -⟩ := firstFreed_fields wide small
  refine ⟨chain_cons.mpr ⟨rfl, by decide, chain_nil.mpr next⟩, ?_, by simp [Follows], ?_, by decide,
    by simp, ?_⟩
  · intro n member
    obtain rfl : 65536 = n := by simpa using member
    exact prev
  · intro n member
    obtain rfl := List.mem_singleton.mp member
    exact Nat.le_trans wide (Nat.le_of_eq size.symm)
  · intro n member
    obtain rfl := List.mem_singleton.mp member
    refine accessible_iff.mpr fun i inside => ?_
    have below : i < first := Nat.lt_of_lt_of_eq inside size
    simp only [roomySystem, Bool.and_eq_true, decide_eq_true_eq]
    omega

theorem firstFreed_inUse (wide : 24 ≤ first) (small : first < 2 ^ 62) :
    InUse roomySystem (firstFreed first) [65536] (65536 + first) 48 := by
  obtain ⟨size, -, -, header⟩ := firstFreed_fields wide small
  refine ⟨header, by decide, ?_, fun n member => ?_⟩
  · refine accessible_iff.mpr fun i inside => ?_
    simp only [roomySystem, Bool.and_eq_true, decide_eq_true_eq]
    omega
  · obtain rfl := List.mem_singleton.mp member
    have extent : (firstFreed first).extentAt 65536 = ⟨65536, first⟩ := congrArg (Extent.mk _) size
    rw [extent]
    exact (Extent.apart_iff (by simp only; omega) (by simp)).mpr (Or.inl (Nat.le_refl _))

/-- Small blocks: sixteen bytes are cut from 32, and 48 bytes go to 32. -/
theorem recorded_sizes_small :
    (∃ p h', kumalloc roomySystem 1 (firstFreed 32) 8 = .ok (p, h') ∧
      SplitsExactly (firstFreed 32) h' [65536] [] 65536 16) ∧
    ∃ k, kufree roomySystem 2 (firstFreed 32) 65576 = .ok k ∧
      MergesExactly (firstFreed 32) k [65536] 65568 48 := by
  have linked : WellLinked roomySystem (firstFreed 32) [65536] :=
    firstFreed_linked (by decide) (by decide)
  have used : InUse roomySystem (firstFreed 32) [65536] 65568 48 :=
    firstFreed_inUse (by decide) (by decide)
  have split : (kumalloc roomySystem 1 (firstFreed 32) 8).toOption.isSome = true := by decide
  have merge : (kufree roomySystem 2 (firstFreed 32) 65576).toOption.isSome = true := by decide
  have trim : (trimLoop roomySystem 2 (firstFreed 32) 65536).toOption.any
      (fun g => g.head = 65536 ∧ g.nextAt 65536 = 0) = true := by decide
  obtain ⟨out, ran⟩ := Option.isSome_iff_exists.mp split
  obtain ⟨k, ran'⟩ := Option.isSome_iff_exists.mp merge
  rw [toOption_eq_some] at ran ran'
  refine ⟨⟨out.1, out.2, ran, ?_⟩, k, ran', ?_⟩
  · refine ((recorded_sizes_iff linked).1 1 8 [] 65536 [] out.1 out.2 rfl (by decide) (by simp)
      (by decide) ran).mpr ⟨by decide, by simp⟩
  · obtain ⟨g, kept, trimmed, list, -, exact_iff⟩ :=
      (recorded_sizes_iff linked).2 2 65568 48 k used (by decide) ran'
    simp only [Option.any_eq_true, toOption_eq_some, decide_eq_true_eq] at trim
    obtain ⟨g', trimmed', head, next⟩ := trim
    cases trimmed.symm.trans trimmed'
    have only : g.FreeList [65536] := chain_cons.mpr ⟨head, by decide, chain_nil.mpr next⟩
    cases chain_unique list only
    exact exact_iff.mpr fun _ => by decide

/-- A block of 2^31 + 32 bytes is handed out whole for a request of 24, and with
the 48 bytes behind it has a size near 2^64. -/
theorem recorded_sizes_large : WellLinked roomySystem (firstFreed 2147483680) [65536] ∧
    (∀ n ∈ [65536], (firstFreed 2147483680).sizeAt n ≤ 2 ^ 62) ∧
    InUse roomySystem (firstFreed 2147483680) [65536] 2147549216 48 ∧
    (∃ h', kumalloc roomySystem 1 (firstFreed 2147483680) 24 = .ok (65544, h') ∧ h'.head = 0 ∧
      ¬ SplitsExactly (firstFreed 2147483680) h' [65536] [] 65536 32) ∧
    ∃ k, kufree roomySystem 2 (firstFreed 2147483680) 2147549224 = .ok k ∧
      k.sizeAt 65536 = 2 ^ 64 - 2147483568 ∧
      ¬ MergesExactly (firstFreed 2147483680) k [65536] 2147549216 48 := by
  have split : (kumalloc roomySystem 1 (firstFreed 2147483680) 24).toOption.any
      (fun out => out.1 = 65544 ∧ out.2.head = 0) = true := by decide
  have merge : (kufree roomySystem 2 (firstFreed 2147483680) 2147549224).toOption.any
      (fun k => k.sizeAt 65536 = 2 ^ 64 - 2147483568) = true := by decide
  simp only [Option.any_eq_true, toOption_eq_some, decide_eq_true_eq] at split merge
  obtain ⟨⟨p, h'⟩, ran, rfl, head⟩ := split
  obtain ⟨k, ran', size⟩ := merge
  refine ⟨firstFreed_linked (by decide) (by decide), by decide,
    firstFreed_inUse (by decide) (by decide), ⟨h', ran, head, fun exactly => ?_⟩, k, ran', size,
    fun exactly => ?_⟩
  · have link : h'.head = 65568 := (exactly.split.mpr (by decide)).2
    rw [head] at link
    cases link
  · have sum : k.sizeAt 65536 = 2147483728 := exactly (by decide)
    rw [size] at sum
    cases sum

end

end Comp304.Alloc
