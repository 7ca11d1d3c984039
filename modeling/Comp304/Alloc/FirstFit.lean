import Comp304.Alloc.Reuse

/-! The reuse path of `kumalloc` on any well-formed list, tidy or not. Taking the
first fit writes a node behind the part that is handed out, even when what
remains there is smaller than a node or nothing at all; and a block that is not
the head is taken out through the node behind it, without a test that there is
one. -/
namespace Comp304.Alloc
open Library.Budget Library.ByteMemory Library.Lp64 Library.Extents Library.LinkedChain Heap

/-- A list as the code means it: linked both ways, of blocks that are apart and
mapped, wide enough for a node and at addresses a node can have. -/
structure WellLinked (sys : System) (h : Heap) (nodes : List Nat) : Prop where
  list : h.FreeList nodes
  first : ∀ n ∈ nodes.head?, h.prevAt n = 0
  mirrored : ∀ n m, Follows nodes n m → h.prevAt m = n
  wide : ∀ n ∈ nodes, 24 ≤ h.sizeAt n
  aligned : ∀ n ∈ nodes, n % 8 = 0
  apart : ∀ n ∈ nodes, ∀ m ∈ nodes, n ≠ m → (h.extentAt n).Apart (h.extentAt m)
  mapped : ∀ n ∈ nodes, h.accessible sys n (h.sizeAt n) = true

/-- The block has its header, and what remains of it, if anything, has its place
on the list, all without a call of `sbrk`. -/
structure FirstFitTaken (h h' : Heap) (front : List Nat) (block : Nat) (back : List Nat)
    (total : Nat) : Prop where
  calls : h'.sbrkCalls = h.sbrkCalls
  header : h'.sizeAt block = total
  list : h'.FreeList (front ++ (if total < h.sizeAt block then [block + total] else []) ++ back)
  remainder : total < h.sizeAt block → h'.sizeAt (block + total) = h.sizeAt block - total
  others : ∀ n ∈ front ++ back, h'.sizeAt n = h.sizeAt n

/-- What leads to the place behind these nodes: the head, or the `next` of the
last of them. -/
def Heap.linkBehind (h : Heap) (front : List Nat) : Nat :=
  match front.getLast? with
  | some before => h.nextAt before
  | none => h.head

/-- The `prev` that the remainder's node gets: the node before it, or, at the head,
what the reused block has there once its remainder's size is written. -/
def remainderPrev (front : List Nat) (total size : Nat) : Nat :=
  match front.getLast? with
  | some before => before
  | none => if total = 16 then size else 0

/-- The reuse path does what it should: a block that is not the head is not the
last either, the difference of the sizes is an `int`, and the node written behind
the part that is handed out is mapped and leaves the others as they are. On an
exact fit its first sixteen bytes are written, all zero. -/
structure CutsCleanly (sys : System) (h : Heap) (front : List Nat) (block : Nat) (back : List Nat)
    (total : Nat) : Prop where
  behind : front ≠ [] → back ≠ []
  small : h.sizeAt block - total < 2 ^ 31
  mapped : h.accessible sys (block + total) (if total < h.sizeAt block then 24 else 16) = true
  zeroed : h.sizeAt block = total →
    ∀ n ∈ front ++ back, n ≠ block + total ∧ n ≠ block + total + 8
  spilled : total < h.sizeAt block → ∀ n ∈ front ++ back,
    (n = block + total + 8 → h.sizeAt n = h.nextAt block ∧
      h.nextAt n = remainderPrev front total (h.sizeAt block - total)) ∧
    (n = block + total + 16 → h.sizeAt n = remainderPrev front total (h.sizeAt block - total))

section
variable {sys : System} {h h' g : Heap} {front back : List Nat} {block total value : Nat}

/-! ### The blocks of a list -/

theorem accessible_part (access : h.accessible sys a w = true) (low : a ≤ c) (high : c + v ≤ a + w) :
    h.accessible sys c v = true := by
  rw [accessible_iff] at access ⊢
  intro i inside
  have byte := access (c - a + i) (by omega)
  rwa [show a + (c - a + i) = c + i by omega] at byte

namespace WellLinked

theorem node_bounds (linked : WellLinked sys h nodes) (member : n ∈ nodes) :
    4096 ≤ n ∧ n + h.word n ≤ 2 ^ 63 ∧ 24 ≤ h.word n ∧ n % 8 = 0 := by
  have wide : 24 ≤ h.word n := linked.wide n member
  have access : h.accessible sys n (h.word n) = true := linked.mapped n member
  rw [accessible_iff] at access
  have low := (sys.user_mapped _ _ (access 0 (by omega))).1
  have high := (sys.user_mapped _ _ (access (h.word n - 1) (by omega))).2
  exact ⟨by omega, by omega, wide, linked.aligned n member⟩

theorem node_accessible (linked : WellLinked sys h nodes) (member : n ∈ nodes) (low : n ≤ a)
    (high : a ≤ n + 16) : h.accessible sys a 8 = true := by
  have wide : 24 ≤ h.word n := linked.wide n member
  exact accessible_part (linked.mapped n member) low (show a + 8 ≤ n + h.word n by omega)

theorem node_apart (linked : WellLinked sys h nodes) (memberN : n ∈ nodes) (memberM : m ∈ nodes)
    (different : n ≠ m) : n + h.word n ≤ m ∨ m + h.word m ≤ n := by
  have wideN := linked.wide n memberN
  have wideM := linked.wide m memberM
  have positiveN : 0 < (h.extentAt n).len := show 0 < h.sizeAt n by omega
  have positiveM : 0 < (h.extentAt m).len := show 0 < h.sizeAt m by omega
  exact (Extent.apart_iff positiveN positiveM).mp (linked.apart n memberN m memberM different)

theorem fields_apart (linked : WellLinked sys h nodes) (memberN : n ∈ nodes) (memberM : m ∈ nodes)
    (different : n ≠ m) : n + 24 ≤ m ∨ m + 24 ≤ n := by
  have apart := linked.node_apart memberN memberM different
  have wideN := (linked.node_bounds memberN).2.2.1
  have wideM := (linked.node_bounds memberM).2.2.1
  omega

/-- The other nodes are in front of a listed block or behind it, at whole words. -/
theorem others_apart (linked : WellLinked sys h (front ++ block :: back)) (member : n ∈ front ++ back) :
    n ∈ front ++ block :: back ∧ (n + 24 ≤ block ∨ block + h.word block ≤ n) ∧ n % 8 = 0 := by
  have distinct := List.perm_middle.nodup_iff.mp linked.list.nodup
  have listed : n ∈ front ++ block :: back :=
    List.perm_middle.mem_iff.mpr (List.mem_cons_of_mem _ member)
  have different : n ≠ block := fun same => (List.nodup_cons.mp distinct).1 (same ▸ member)
  have apart := linked.node_apart listed (m := block) (by simp) different
  have bounds := linked.node_bounds listed
  exact ⟨listed, by omega, bounds.2.2.2⟩

end WellLinked

/-- The stores hit the `next` of no other node, unless it lies right behind. -/
theorem stamp_link (linked : WellLinked sys h (front ++ block :: back)) (aligned : total % 8 = 0)
    (fits : total ≤ h.word block) (member : n ∈ front ++ back) (clear : n ≠ block + total) :
    (stamp h block total value).word (n + 8) = h.word (n + 8) := by
  obtain ⟨-, apart, grain⟩ := linked.others_apart member
  have bounds := linked.node_bounds (n := block) (by simp)
  exact stamp_word (by omega) (by omega)

/-! ### What is left of the list -/

/-- The remainder has the block's place on the list. The node of the remainder is
written over whatever is there. -/
structure Cut (h h' : Heap) (front : List Nat) (block : Nat) (back : List Nat)
    (total value : Nat) : Prop where
  calls : h'.sbrkCalls = h.sbrkCalls
  head : h'.head = if h.head = block then block + total else h.head
  header : h'.word block = total
  size : h'.word (block + total) = value
  next : h'.word (block + total + 8) = h.word (block + 8)
  sizes : ∀ n ∈ front ++ back, h'.word n =
    if n = block + total + 8 then h.word (block + 8)
    else if n = block + total + 16 then remainderPrev front total value else h.word n
  links : ∀ n ∈ front ++ back, h'.word (n + 8) =
    if n = block + total + 8 then remainderPrev front total value
    else if h.word (n + 8) = block then block + total else h.word (n + 8)

/-- The block is out of the list; behind it are the bytes of the three stores. -/
structure Unlinked (h h' : Heap) (front : List Nat) (block : Nat) (back : List Nat)
    (total value : Nat) : Prop where
  calls : h'.sbrkCalls = h.sbrkCalls
  head : h'.head = if h.head = block then h.word (block + 8) else h.head
  header : h'.word block = total
  sizes : ∀ n ∈ front ++ back, h'.word n = (stamp h block total value).word n
  links : ∀ n ∈ front ++ back, n ≠ block + total → h'.word (n + 8) =
    if h.word (n + 8) = block then h.word (block + 8) else h.word (n + 8)

theorem reuseHead_cut (linked : WellLinked sys h (block :: back)) (wide : 16 ≤ total)
    (aligned : total % 8 = 0) (fits : total < h.word block) (positive : 0 < diff)
    (small : value < 2 ^ 64)
    (ran : reuseHead sys (block + total) diff (stamp h block total value) = .ok h') :
    Cut h h' [] block back total value := by
  have linked' : WellLinked sys h ([] ++ block :: back) := linked
  have first : h.head = block := Chain.head_eq linked.list
  have bounds := linked.node_bounds (n := block) (by simp)
  have next := word_lt h (block + 8)
  obtain ⟨-, -, -, -, rfl⟩ :=
    (reuseHead_eq_ok (g := stamp h block total value) first positive).mp ran
  rw [stamp_next wide]
  have prev : ((stamp h block total value).put (block + total + 8) (h.word (block + 8))).word
      (block + 16) = remainderPrev [] total value := by
    rw [word_put_apart (by omega), remainderPrev, List.getLast?_nil]
    by_cases smallest : total = 16
    · rw [smallest, if_pos rfl]
      exact stamp_size (by decide) small
    · have none : h.word (block + 16) = 0 := linked.first block rfl
      rw [stamp_word (by omega) (by omega), none, if_neg smallest]
  rw [prev]
  have tiny : remainderPrev [] total value < 2 ^ 64 := by
    rw [← prev]
    exact word_lt _ _
  refine ⟨rfl, ?_, ?_, ?_, ?_, fun n member => ?_, fun n member => ?_⟩
  · rw [if_pos first, setHead_head]
  · rw [setHead_word, word_put_apart (by omega), word_put_apart (by omega), stamp_header (by omega)]
  · rw [setHead_word, word_put_apart (by omega), word_put_apart (by omega),
      stamp_size (by omega) small]
  · rw [setHead_word, word_put_apart (by omega), word_put_same next]
  · obtain ⟨-, apart, grain⟩ := linked'.others_apart member
    rw [setHead_word]
    split
    · next here => rw [here, word_put_apart (by omega), word_put_same next]
    · split
      · next here => rw [here, word_put_same tiny]
      · rw [word_put_apart (by omega), word_put_apart (by omega),
          stamp_word (by omega) (by omega)]
  · obtain ⟨listed, apart, grain⟩ := linked'.others_apart member
    have other : h.word (n + 8) ≠ block := linked.list.next_ne_first listed
    rw [setHead_word, if_neg other]
    split
    · next here => rw [here, word_put_same tiny]
    · rw [word_put_apart (by omega), word_put_apart (by omega), stamp_word (by omega) (by omega)]

theorem reuseHead_unlinked (linked : WellLinked sys h (block :: back)) (wide : 16 ≤ total)
    (aligned : total % 8 = 0) (fits : total ≤ h.word block) (spent : ¬ 0 < diff)
    (ran : reuseHead sys (block + total) diff (stamp h block total value) = .ok h') :
    Unlinked h h' [] block back total value := by
  have linked' : WellLinked sys h ([] ++ block :: back) := linked
  have first : h.head = block := Chain.head_eq linked.list
  have bounds := linked.node_bounds (n := block) (by simp)
  obtain ⟨-, ran⟩ := (reuseHead_spent_eq_ok (g := stamp h block total value) first spent).mp ran
  rw [stamp_next wide] at ran
  have links : ∀ n ∈ [] ++ back, n ≠ block + total → (stamp h block total value).word (n + 8) =
      if h.word (n + 8) = block then h.word (block + 8) else h.word (n + 8) := by
    intro n member clear
    have other : h.word (n + 8) ≠ block :=
      linked.list.next_ne_first (List.mem_cons_of_mem _ member)
    rw [if_neg other]
    exact stamp_link linked' aligned fits member clear
  rcases ran with ⟨last, rfl⟩ | ⟨last, -, rfl⟩
  · refine ⟨rfl, ?_, ?_, fun n member => rfl, links⟩
    · rw [if_pos first, last, setHead_head]
    · rw [setHead_word, stamp_header (by omega)]
  · cases back with
    | nil => exact absurd (last_word linked'.list) last
    | cons after back =>
      have next : h.word (block + 8) = after := next_word linked'.list
      rw [next]
      have behind := (linked'.others_apart (n := after) (by simp)).2.1
      have apart : ∀ n ∈ after :: back, n = after ∨ n + 24 ≤ after ∨ after + 24 ≤ n := by
        intro n member
        by_cases same : n = after
        · exact Or.inl same
        · exact Or.inr (linked.fields_apart (by simp [member]) (by simp) same)
      refine ⟨rfl, ?_, ?_, fun n member => ?_, fun n member clear => ?_⟩
      · rw [if_pos first]
        exact next.symm
      · rw [word_put_apart (by omega), setHead_word, stamp_header (by omega)]
      · have apart := apart n member
        rw [word_put_apart (by omega), setHead_word]
      · have apart := apart n member
        rw [word_put_apart (by omega), setHead_word]
        exact links n member clear

theorem getLast_remainderPrev (front : List Nat) (p total size : Nat) :
    remainderPrev (front ++ [p]) total size = p := by
  rw [remainderPrev, List.getLast?_append_cons, List.getLast?_singleton]

/-- The nodes but the block, when it has one in front and one behind. -/
theorem WellLinked.others_around (linked : WellLinked sys h (front ++ p :: block :: after :: back))
    (member : n ∈ (front ++ [p]) ++ after :: back) :
    n ∈ front ++ p :: block :: after :: back ∧ (n + 24 ≤ block ∨ block + h.word block ≤ n) ∧
      n % 8 = 0 := by
  have shape : front ++ p :: block :: after :: back = (front ++ [p]) ++ block :: after :: back := by
    simp
  rw [shape] at linked ⊢
  exact linked.others_apart member

/-- Each of them is one of the two neighbours or apart from it. -/
theorem WellLinked.neighbours_apart
    (linked : WellLinked sys h (front ++ p :: block :: after :: back))
    (member : n ∈ (front ++ [p]) ++ after :: back) :
    (n = p ∨ n + 24 ≤ p ∨ p + 24 ≤ n) ∧ (n = after ∨ n + 24 ≤ after ∨ after + 24 ≤ n) := by
  have fields : ∀ m ∈ [p, after], n = m ∨ n + 24 ≤ m ∨ m + 24 ≤ n := by
    intro m either
    by_cases same : n = m
    · exact Or.inl same
    · refine Or.inr (linked.fields_apart (linked.others_around member).1 ?_ same)
      simp only [List.mem_cons, List.not_mem_nil, or_false] at either
      rcases either with rfl | rfl <;> simp
  exact ⟨fields p (by simp), fields after (by simp)⟩

/-- The three stores leave the links around the block as they are. -/
theorem stamp_around (value : Nat)
    (linked : WellLinked sys h (front ++ p :: block :: after :: back))
    (wide : 16 ≤ total) (aligned : total % 8 = 0) (fits : total ≤ h.word block)
    (clear : p ≠ block + total) :
    (stamp h block total value).word (p + 8) = block ∧
      (stamp h block total value).word (block + 8) = after ∧ h.word (block + 8) = after := by
  have shape : front ++ p :: block :: after :: back = (front ++ [p]) ++ block :: after :: back := by
    simp
  have next : h.word (block + 8) = after := next_word (shape ▸ linked.list)
  refine ⟨?_, (stamp_next wide).trans next, next⟩
  rw [stamp_link (shape ▸ linked) aligned fits (by simp) clear]
  exact next_word linked.list

theorem unlinkNext_cut (linked : WellLinked sys h (front ++ p :: block :: after :: back))
    (wide : 16 ≤ total) (aligned : total % 8 = 0) (fits : total < h.word block)
    (positive : 0 < diff) (small : value < 2 ^ 64)
    (ran : unlinkNext sys (block + total) diff (stamp h block total value) p = .ok h') :
    Cut h h' (front ++ [p]) block (after :: back) total value := by
  have bounds := linked.node_bounds (n := block) (by simp)
  have boundsP := linked.node_bounds (n := p) (by simp)
  have boundsA := linked.node_bounds (n := after) (by simp)
  have apartP := (linked.others_around (n := p) (by simp)).2.1
  have apartA := (linked.others_around (n := after) (by simp)).2.1
  obtain ⟨leads, next, next'⟩ := stamp_around value linked wide aligned
    (Nat.le_of_lt fits) (by omega)
  obtain ⟨-, -, -, -, -, rfl⟩ := (unlinkNext_eq_ok leads positive (by omega) (by omega)).mp ran
  rw [next]
  refine ⟨rfl, ?_, ?_, ?_, ?_, fun n member => ?_, fun n member => ?_⟩
  · rw [if_neg linked.list.start_ne]
    rfl
  · simp (disch := omega) only [word_put_apart, stamp_header]
  · simp (disch := omega) only [word_put_apart, stamp_size]
  · rw [next']
    simp (disch := omega) only [word_put_apart, word_put_same]
  · obtain ⟨-, apart, grain⟩ := linked.others_around member
    obtain ⟨nearP, nearA⟩ := linked.neighbours_apart member
    rw [getLast_remainderPrev, next']
    split
    · next here =>
      subst here
      simp (disch := omega) only [word_put_apart, word_put_same]
    · split
      · next here => rw [here, word_put_same (by omega)]
      · simp (disch := omega) only [word_put_apart, stamp_word]
  · obtain ⟨listed, apart, grain⟩ := linked.others_around member
    obtain ⟨nearP, nearA⟩ := linked.neighbours_apart member
    rw [getLast_remainderPrev]
    split
    · next here => rw [here, word_put_same (by omega)]
    · by_cases last : n = p
      · rw [last, word_put_apart (by omega), word_put_same (by omega),
          if_pos (next_word linked.list)]
      · rw [if_neg (next_word_ne linked.list listed last)]
        simp (disch := omega) only [word_put_apart, stamp_word]

theorem unlinkNext_unlinked (linked : WellLinked sys h (front ++ p :: block :: after :: back))
    (wide : 16 ≤ total) (aligned : total % 8 = 0) (fits : total ≤ h.word block)
    (spent : ¬ 0 < diff) (clear : p ≠ block + total)
    (ran : unlinkNext sys (block + total) diff (stamp h block total value) p = .ok h') :
    Unlinked h h' (front ++ [p]) block (after :: back) total value := by
  have bounds := linked.node_bounds (n := block) (by simp)
  have boundsA := linked.node_bounds (n := after) (by simp)
  obtain ⟨-, apartP, grainP⟩ := linked.others_around (n := p) (by simp)
  have apartA := (linked.others_around (n := after) (by simp)).2.1
  have nearPA := (linked.neighbours_apart (n := p) (by simp)).2
  obtain ⟨leads, next, next'⟩ := stamp_around value linked wide aligned fits clear
  obtain ⟨-, -, -, rfl⟩ := (unlinkNext_spent_eq_ok leads spent (by rw [next]; omega)
    (by rw [next]; omega)).mp ran
  rw [next]
  refine ⟨rfl, ?_, ?_, fun n member => ?_, fun n member other => ?_⟩
  · rw [if_neg linked.list.start_ne]
    rfl
  · simp (disch := omega) only [word_put_apart, stamp_header]
  · obtain ⟨nearP, nearA⟩ := linked.neighbours_apart member
    simp (disch := omega) only [word_put_apart]
  · obtain ⟨listed, apart, grain⟩ := linked.others_around member
    obtain ⟨nearP, nearA⟩ := linked.neighbours_apart member
    by_cases last : n = p
    · rw [last, word_put_same (by omega), if_pos (next_word linked.list), next']
    · rw [if_neg (next_word_ne linked.list listed last)]
      simp (disch := omega) only [word_put_apart, stamp_word]

/-! ### The reuse path -/

/-- The walk from the head reaches the node before the block, unless a node in
front lies right behind the block and has lost its `next`. -/
theorem walk_settles (linked : WellLinked sys h (front ++ p :: block :: back))
    (aligned : total % 8 = 0) (fits : total ≤ h.word block)
    (clear : block + total ∉ front ++ [p]) :
    Settles .spent front.length.succ rounds
      (unlinkBlock sys block (block + total) diff (stamp h block total value) rounds h.head)
      (unlinkNext sys (block + total) diff (stamp h block total value) p) := by
  have shape : front ++ p :: block :: back = (front ++ [p]) ++ block :: back := by simp
  have kept : ∀ n ∈ front ++ [p], (stamp h block total value).word (n + 8) = h.word (n + 8) :=
    fun n member => stamp_link (shape ▸ linked) aligned fits (List.mem_append_left _ member)
      fun same => clear (same ▸ member)
  have path : Path (stamp h block total value).nextAt h.head front p :=
    path_congr (fun n member => kept n (List.mem_append_left _ member)) linked.list.front_path
  have leads : h.word (p + 8) = block := next_word linked.list
  have nonnull : block ≠ 0 := linked.list.ne_null (by simp)
  have passed : ∀ n ∈ front, (stamp h block total value).word (n + 8) ≠ 0 ∧
      (stamp h block total value).word (n + 8) ≠ block := by
    intro n member
    rw [kept n (List.mem_append_left _ member)]
    refine ⟨linked.list.next_ne_null member, next_word_ne linked.list (by simp [member]) ?_⟩
    rintro rfl
    exact linked.list.not_mem_front member
  have readable : ∀ n ∈ front ++ [p],
      (stamp h block total value).accessible sys (n + 8) 8 = true := by
    intro n member
    refine linked.node_accessible (n := n) ?_ (by omega) (by omega)
    rw [shape]
    exact List.mem_append_left _ member
  have ends : (stamp h block total value).word (p + 8) = block := (kept p (by simp)).trans leads
  refine (unlinkBlock_walks path passed readable (Or.inr ⟨ends, nonnull⟩)).trans (.of_eq ?_)
  rw [ends, if_neg nonnull]

/-- The walk stops at a node in front of the block that has lost its `next`. -/
theorem walk_stops (linked : WellLinked sys h (front ++ block :: back)) (aligned : total % 8 = 0)
    (wide : 16 ≤ total) (fits : total ≤ h.word block) (hit : block + total ∈ front) :
    Settles .spent front.length rounds
      (unlinkBlock sys block (block + total) diff (stamp h block total value) rounds h.head)
      (.ok (stamp h block total value)) := by
  obtain ⟨before, rest, rfl⟩ := List.append_of_mem hit
  have shape : (before ++ (block + total) :: rest) ++ block :: back =
      before ++ (block + total) :: (rest ++ block :: back) := by simp
  have chain : Chain 0 h.nextAt h.head (before ++ (block + total) :: (rest ++ block :: back)) :=
    shape ▸ linked.list
  have distinct := List.nodup_append.mp chain.nodup
  have member : ∀ n ∈ before, n ∈ (before ++ (block + total) :: rest) ++ block :: back :=
    fun n inFront => by simp [inFront]
  have kept : ∀ n ∈ before, (stamp h block total value).word (n + 8) = h.word (n + 8) :=
    fun n inFront => stamp_link linked aligned fits (by simp [inFront])
      (distinct.2.2 n inFront _ (by simp))
  have cleared : (stamp h block total value).word (block + total + 8) = 0 := by
    rw [stamp, word_put_apart (by omega), word_put_apart (by omega), word_put_same (by decide)]
  have path : Path (stamp h block total value).nextAt h.head before (block + total) :=
    path_congr kept chain.front_path
  have passed : ∀ n ∈ before, (stamp h block total value).word (n + 8) ≠ 0 ∧
      (stamp h block total value).word (n + 8) ≠ block := by
    intro n inFront
    rw [kept n inFront]
    refine ⟨chain.next_ne_null inFront, ?_⟩
    -- only the node right in front of the block leads to it, and that comes later
    cases List.eq_nil_or_concat' ((block + total) :: rest) with
    | inl none => cases none
    | inr split =>
      obtain ⟨middle, p, split⟩ := split
      have long : (before ++ (block + total) :: rest) ++ block :: back =
          (before ++ middle) ++ p :: block :: back := by simp [split]
      have listed := member n inFront
      rw [long] at listed
      refine next_word_ne (long ▸ linked.list) listed ?_
      refine distinct.2.2 n inFront p ?_
      rw [← List.cons_append, split]
      simp
  have readable : ∀ n ∈ before ++ [block + total],
      (stamp h block total value).accessible sys (n + 8) 8 = true := by
    intro n inFront
    refine linked.node_accessible (n := n) ?_ (by omega) (by omega)
    simp only [List.mem_append, List.mem_singleton] at inFront ⊢
    rcases inFront with inFront | rfl <;> simp [*]
  refine Settles.weaken ?_ (show before.length.succ ≤ _ by simp)
  exact (unlinkBlock_walks path passed readable (Or.inl cleared)).trans (.of_eq (if_pos cleared))

theorem accessible_join (first : h.accessible sys a v = true)
    (second : h.accessible sys (a + v) w = true) : h.accessible sys a (v + w) = true := by
  rw [accessible_iff] at first second ⊢
  intro i inside
  by_cases low : i < v
  · exact first i low
  · have byte := second (i - v) (by omega)
    rwa [show a + v + (i - v) = a + i by omega] at byte

/-- The node behind the block, where the code writes its `prev`. -/
theorem back_nonempty {behind : Nat} (linked : WellLinked sys h (front ++ block :: back))
    (next : behind = h.word (block + 8)) (mapped : h.accessible sys (behind + 16) 8 = true) :
    back ≠ [] := by
  rintro rfl
  rw [next, last_word linked.list] at mapped
  exact absurd (accessible_bounds mapped).1 (by decide)

/-- What is left when the difference of the sizes is positive as an `int`. -/
theorem reuseBlock_cut (linked : WellLinked sys h (front ++ block :: back)) (wide : 16 ≤ total)
    (aligned : total % 8 = 0) (fits : total < h.word block)
    (positive : 0 < subInt (toInt (h.word block)) (toInt total))
    (ran : reuseBlock sys rounds h block total = .ok h') :
    (front ≠ [] → back ≠ []) ∧ h.accessible sys (block + total) 24 = true ∧
      Cut h h' front block back total (toSize (subInt (toInt (h.word block)) (toInt total))) := by
  have bounds := linked.node_bounds (n := block) (by simp)
  obtain ⟨next, -, size, ran⟩ := (reuseBlock_eq_ok (by omega) (by omega)).mp ran
  have small := toSize_lt (subInt (toInt (h.word block)) (toInt total))
  generalize toSize _ = value at ran small ⊢
  generalize subInt _ _ = diff at ran positive
  have mapped : h.accessible sys (block + total + 16) 8 = true →
      h.accessible sys (block + total) 24 = true := fun prev =>
    accessible_join size (accessible_join next prev)
  cases List.eq_nil_or_concat' front with
  | inl empty =>
    subst empty
    have first : h.head = block := Chain.head_eq linked.list
    rw [if_pos first] at ran
    have prev := ((reuseHead_eq_ok (g := stamp h block total value) first positive).mp ran).2.2.2.1
    exact ⟨fun nonempty => absurd rfl nonempty, mapped prev,
      reuseHead_cut linked wide aligned fits positive small ran⟩
  | inr split =>
    obtain ⟨front, p, rfl⟩ := split
    have shape : (front ++ [p]) ++ block :: back = front ++ p :: block :: back := by simp
    have clear : block + total ∉ front ++ [p] := fun hit => by
      have apart := (linked.others_apart (List.mem_append_left _ hit)).2.1
      omega
    obtain ⟨-, apartP, grainP⟩ := linked.others_apart (n := p) (by simp)
    have whole := linked
    rw [shape] at linked
    rw [if_neg linked.list.start_ne] at ran
    have ran := (walk_settles linked aligned (Nat.le_of_lt fits) clear).returned ran
    have leads : (stamp h block total value).word (p + 8) = block := by
      rw [stamp_word (by omega) (by omega)]
      exact next_word linked.list
    obtain ⟨-, -, -, behind, prev, -⟩ :=
      (unlinkNext_eq_ok leads positive (by omega) (by omega)).mp ran
    have nonempty : back ≠ [] := back_nonempty whole (stamp_next wide) behind
    obtain ⟨after, back, rfl⟩ := List.exists_cons_of_ne_nil nonempty
    exact ⟨fun _ => nonempty, mapped prev,
      unlinkNext_cut linked wide aligned fits positive small ran⟩

/-- What is left when it is not: the block is out of the list, unless a node in
front lies right behind it. -/
theorem reuseBlock_unlinked (linked : WellLinked sys h (front ++ block :: back))
    (wide : 16 ≤ total) (aligned : total % 8 = 0) (fits : total ≤ h.word block)
    (spent : ¬ 0 < subInt (toInt (h.word block)) (toInt total))
    (ran : reuseBlock sys rounds h block total = .ok h') :
    h.accessible sys (block + total) 16 = true ∧
    ((block + total ∈ front ∧
        h' = stamp h block total (toSize (subInt (toInt (h.word block)) (toInt total)))) ∨
      block + total ∉ front ∧ (front ≠ [] → back ≠ []) ∧ Unlinked h h' front block back total
        (toSize (subInt (toInt (h.word block)) (toInt total)))) := by
  have bounds := linked.node_bounds (n := block) (by simp)
  obtain ⟨next, -, size, ran⟩ := (reuseBlock_eq_ok (by omega) (by omega)).mp ran
  generalize toSize _ = value at ran ⊢
  generalize subInt _ _ = diff at ran spent
  refine ⟨accessible_join size next, ?_⟩
  cases List.eq_nil_or_concat' front with
  | inl empty =>
    subst empty
    have first : h.head = block := Chain.head_eq linked.list
    rw [if_pos first] at ran
    exact Or.inr ⟨by simp, fun nonempty => absurd rfl nonempty,
      reuseHead_unlinked linked wide aligned fits spent ran⟩
  | inr split =>
    obtain ⟨front, p, rfl⟩ := split
    have shape : (front ++ [p]) ++ block :: back = front ++ p :: block :: back := by simp
    have notHead : h.head ≠ block := (shape ▸ linked.list).start_ne
    rw [if_neg notHead] at ran
    by_cases hit : block + total ∈ front ++ [p]
    · have stopped := (walk_stops linked aligned wide fits hit).returned ran
      exact Or.inl ⟨hit, (Except.ok.inj stopped).symm⟩
    · refine Or.inr ⟨hit, ?_⟩
      obtain ⟨-, apartP, grainP⟩ := linked.others_apart (n := p) (by simp)
      have different : p ≠ block + total := by
        rintro rfl
        exact hit (by simp)
      have whole := linked
      rw [shape] at linked
      have ran := (walk_settles linked aligned fits hit).returned ran
      have leads : (stamp h block total value).word (p + 8) = block := by
        rw [stamp_word (by omega) (by omega)]
        exact next_word linked.list
      have behind := unlinkNext_spent_behind leads spent ran
      rw [stamp_accessible] at behind
      have nonempty : back ≠ [] := back_nonempty whole (stamp_next wide) behind
      obtain ⟨after, back, rfl⟩ := List.exists_cons_of_ne_nil nonempty
      exact ⟨fun _ => nonempty, unlinkNext_unlinked linked wide aligned fits spent different ran⟩

/-- The reuse path returns when all it writes is mapped and there is a node behind
a block that is not the head. -/
theorem reuseBlock_returns (linked : WellLinked sys h (front ++ block :: back))
    (wide : 16 ≤ total) (aligned : total % 8 = 0) (fits : total ≤ h.word block)
    (behind : front ≠ [] → back ≠ []) (clear : block + total ∉ front)
    (mapped : h.accessible sys (block + total)
      (if 0 < subInt (toInt (h.word block)) (toInt total) then 24 else 16) = true)
    (budget : front.length < rounds) :
    ∃ h', reuseBlock sys rounds h block total = .ok h' := by
  have bounds := linked.node_bounds (n := block) (by simp)
  have listed : block ∈ front ++ block :: back := by simp
  have sizeMapped : h.accessible sys (block + total) 8 = true :=
    accessible_part mapped (Nat.le_refl _) (by split <;> omega)
  have nextMapped : h.accessible sys (block + total + 8) 8 = true :=
    accessible_part mapped (by omega) (by split <;> omega)
  have own : ∀ a, block ≤ a → a ≤ block + 16 → h.accessible sys a 8 = true := fun a low high =>
    linked.node_accessible listed low high
  have prevMapped : 0 < subInt (toInt (h.word block)) (toInt total) →
      h.accessible sys (block + total + 16) 8 = true := fun positive =>
    accessible_part mapped (by omega) (by rw [if_pos positive])
  simp only [reuseBlock_eq_ok (show 8 ≤ total by omega) (show block + total < 2 ^ 64 by omega),
    exists_and_left]
  refine ⟨nextMapped, own block (by omega) (by omega), sizeMapped, ?_⟩
  generalize toSize _ = value
  generalize subInt _ _ = diff at prevMapped
  cases List.eq_nil_or_concat' front with
  | inl empty =>
    subst empty
    have first : h.head = block := Chain.head_eq linked.list
    rw [if_pos first]
    by_cases positive : 0 < diff
    · exact ⟨_, (reuseHead_eq_ok (g := stamp h block total value) first positive).mpr
        ⟨own _ (by omega) (by omega), nextMapped, own _ (by omega) (by omega),
          prevMapped positive, rfl⟩⟩
    · simp only [reuseHead_spent_eq_ok (g := stamp h block total value) first positive,
        exists_and_left, stamp_next wide]
      refine ⟨own _ (by omega) (by omega), ?_⟩
      cases back with
      | nil => exact ⟨_, Or.inl ⟨last_word linked.list, rfl⟩⟩
      | cons after back =>
        have next : h.word (block + 8) = after := next_word linked.list
        have nonnull : after ≠ 0 := linked.list.ne_null (by simp)
        rw [next]
        exact ⟨_, Or.inr ⟨nonnull, linked.node_accessible (n := after) (by simp) (by omega)
          (by omega), rfl⟩⟩
  | inr split =>
    obtain ⟨front, p, rfl⟩ := split
    have shape : (front ++ [p]) ++ block :: back = front ++ p :: block :: back := by simp
    obtain ⟨after, back, rfl⟩ := List.exists_cons_of_ne_nil (behind (by simp))
    obtain ⟨-, apartP, grainP⟩ := linked.others_apart (n := p) (by simp)
    obtain ⟨-, apartA, -⟩ := linked.others_apart (n := after) (by simp)
    have boundsA := linked.node_bounds (n := after) (by simp)
    have different : p ≠ block + total := by
      rintro rfl
      exact clear (by simp)
    have next : (stamp h block total value).word (block + 8) = after := by
      rw [stamp_next wide]
      exact next_word linked.list
    have distinct := (shape ▸ linked.list).nodup
    have nearPA : p + 24 ≤ after ∨ after + 24 ≤ p := by
      refine linked.fields_apart (by simp) (by simp) ?_
      rintro rfl
      exact (List.nodup_cons.mp (List.nodup_append.mp distinct).2.1).1 (by simp)
    have atP := linked.node_accessible (n := p) (a := p + 8) (by simp) (by omega) (by omega)
    have atA := linked.node_accessible (n := after) (a := after + 16) (by simp) (by omega) (by omega)
    rw [shape] at linked
    have leads : (stamp h block total value).word (p + 8) = block := by
      rw [stamp_word (by omega) (by omega)]
      exact next_word linked.list
    simp only [if_neg linked.list.start_ne,
      (walk_settles linked aligned fits clear).reached (by simpa using budget)]
    have atBlock := own (block + 8) (by omega) (by omega)
    by_cases positive : 0 < diff
    · exact ⟨_, (unlinkNext_eq_ok leads positive (by omega) (by omega)).mpr
        ⟨atP, atBlock, nextMapped, by rw [next]; exact atA, prevMapped positive, rfl⟩⟩
    · exact ⟨_, (unlinkNext_spent_eq_ok leads positive (by rw [next]; omega)
        (by rw [next]; omega)).mpr ⟨atP, atBlock, by rw [next]; exact atA, rfl⟩⟩

/-! ### The list afterwards -/

/-- No node behind the block leads to it. -/
theorem WellLinked.back_link (linked : WellLinked sys h (front ++ block :: back))
    (member : n ∈ back) : h.word (n + 8) ≠ block := by
  rw [word_next]
  exact linked.list.suffix.next_ne_first (List.mem_cons_of_mem _ member)

/-- The node before the block, when there is one, is where its `prev` points. -/
theorem remainderPrev_of_mem (linked : WellLinked sys h (front ++ block :: back))
    (member : n ∈ front) : remainderPrev front total size ≠ block := by
  cases List.eq_nil_or_concat' front with
  | inl empty => simp [empty] at member
  | inr split =>
    obtain ⟨front, p, rfl⟩ := split
    rw [getLast_remainderPrev]
    rintro rfl
    exact linked.list.not_mem_front (by simp)

theorem Cut.taken (linked : WellLinked sys h (front ++ block :: back)) (fits : total < h.word block)
    (cut : Cut h h' front block back total (h.word block - total))
    (spilled : ∀ n ∈ front ++ back,
      (n = block + total + 8 → h.word n = h.nextAt block ∧
        h.nextAt n = remainderPrev front total (h.word block - total)) ∧
      (n = block + total + 16 → h.word n = remainderPrev front total (h.word block - total))) :
    FirstFitTaken h h' front block back total := by
  have fits' : total < h.sizeAt block := fits
  refine ⟨cut.calls, cut.header, ?_, fun _ => cut.size, fun n member => ?_⟩
  · rw [if_pos fits', List.append_assoc]
    have bounds := linked.node_bounds (n := block) (by simp)
    have next : h'.nextAt (block + total) = h.nextAt block := cut.next
    refine Chain.redirect linked.list cut.head (fun n member => ?_)
      (chain_cons.mpr ⟨rfl, by omega, ?_⟩)
    · have link := cut.links n (List.mem_append_left _ member)
      show h'.word (n + 8) = if h.word (n + 8) = block then block + total else h.word (n + 8)
      rw [link]
      split
      · next here =>
        have same : h.word (n + 8) = _ := ((spilled n (List.mem_append_left _ member)).1 here).2
        rw [same, if_neg (remainderPrev_of_mem linked member)]
      · rfl
    · rw [next]
      refine chain_congr (fun n member => ?_) linked.list.next_chain
      have link := cut.links n (List.mem_append_right _ member)
      rw [if_neg (linked.back_link member)] at link
      show h'.word (n + 8) = h.word (n + 8)
      rw [link]
      split
      · next here => exact (((spilled n (List.mem_append_right _ member)).1 here).2).symm
      · rfl
  · have size := cut.sizes n member
    show h'.word n = h.word n
    rw [size]
    split
    · next here => exact ((spilled n member).1 here).1.symm
    · split
      · next here => exact ((spilled n member).2 here).symm
      · rfl

/-- What the remainder's node is written over is what it writes. -/
theorem Cut.spilled (linked : WellLinked sys h (front ++ block :: back)) (fits : total < h.word block)
    (cut : Cut h h' front block back total (h.word block - total))
    (taken : FirstFitTaken h h' front block back total) : ∀ n ∈ front ++ back,
      (n = block + total + 8 → h.word n = h.nextAt block ∧
        h.nextAt n = remainderPrev front total (h.word block - total)) ∧
      (n = block + total + 16 → h.word n = remainderPrev front total (h.word block - total)) := by
  have fits' : total < h.sizeAt block := fits
  have list := taken.list
  rw [if_pos fits', List.append_assoc] at list
  intro n member
  have size : h'.word n = h.word n := taken.others n member
  have sizes := cut.sizes n member
  have links := cut.links n member
  rw [size] at sizes
  refine ⟨fun here => ?_, fun here => ?_⟩
  · rw [if_pos here] at sizes links
    refine ⟨sizes, ?_⟩
    have link : h'.nextAt n = remainderPrev front total (h.word block - total) := links
    rw [← link]
    cases List.mem_append.mp member with
    | inl inFront =>
      obtain ⟨left, right, rfl⟩ := List.append_of_mem inFront
      have old := linked.list
      rw [List.append_assoc, List.cons_append] at old list
      cases right with
      | nil =>
        -- the node before the block cannot lead to the remainder and be overwritten by it
        rw [getLast_remainderPrev] at link
        have next : h'.nextAt n = block + total := list.next_eq
        omega
      | cons follower right =>
        rw [List.cons_append] at old list
        exact (old.next_eq).trans (list.next_eq).symm
    | inr inBack =>
      obtain ⟨left, right, rfl⟩ := List.append_of_mem inBack
      have old := linked.list
      have oldTail : Chain 0 h.nextAt (h.nextAt n) right :=
        (show (front ++ block :: (left ++ n :: right)) = (front ++ block :: left) ++ n :: right by
          simp) ▸ old |>.next_chain
      have newTail : Chain 0 h'.nextAt (h'.nextAt n) right :=
        (show (front ++ ([block + total] ++ (left ++ n :: right))) =
          (front ++ [block + total] ++ left) ++ n :: right by simp) ▸ list |>.next_chain
      exact oldTail.start_unique newTail
  · rw [if_neg (by omega), if_pos here] at sizes
    exact sizes

theorem Unlinked.taken (linked : WellLinked sys h (front ++ block :: back))
    (aligned : total % 8 = 0) (exact : h.word block = total)
    (zeroed : ∀ n ∈ front ++ back, n ≠ block + total ∧ n ≠ block + total + 8)
    (unlinked : Unlinked h h' front block back total value) :
    FirstFitTaken h h' front block back total := by
  have full : ¬ total < h.sizeAt block := show ¬ total < h.word block by omega
  have bounds := linked.node_bounds (n := block) (by simp)
  refine ⟨unlinked.calls, unlinked.header, ?_, fun more => absurd more full, fun n member => ?_⟩
  · rw [if_neg full, List.append_nil]
    refine Chain.redirect linked.list unlinked.head (fun n member => ?_)
      (chain_congr (fun n member => ?_) linked.list.next_chain)
    · have listed := List.mem_append_left back member
      exact unlinked.links n listed (zeroed n listed).1
    · have listed := List.mem_append_right front member
      have link := unlinked.links n listed (zeroed n listed).1
      rw [if_neg (linked.back_link member)] at link
      exact link
  · obtain ⟨-, apart, grain⟩ := linked.others_apart member
    have clear := zeroed n member
    show h'.word n = h.word n
    rw [unlinked.sizes n member, stamp_word (by omega) (by omega)]

/-- A node in the sixteen bytes behind the block would have no size left. -/
theorem taken_zeroed (linked : WellLinked sys h (front ++ block :: back)) (wide : 16 ≤ total)
    (sizes : ∀ n ∈ front ++ back, h'.word n = (stamp h block total 0).word n)
    (taken : FirstFitTaken h h' front block back total) :
    ∀ n ∈ front ++ back, n ≠ block + total ∧ n ≠ block + total + 8 := by
  intro n member
  have size : h'.word n = h.word n := taken.others n member
  have bounds := linked.node_bounds (linked.others_apart member).1
  rw [sizes n member] at size
  constructor
  · rintro rfl
    rw [stamp_size (by omega) (by decide)] at size
    omega
  · rintro rfl
    rw [stamp, word_put_apart (by omega), word_put_apart (by omega), word_put_same (by decide)]
      at size
    omega

/-- In a list, what leads to the place behind some nodes is the node there. -/
theorem linkBehind_eq (list : h.FreeList (front ++ node :: back)) : h.linkBehind front = node := by
  cases List.eq_nil_or_concat' front with
  | inl empty =>
    subst empty
    exact Chain.head_eq list
  | inr split =>
    obtain ⟨front, p, rfl⟩ := split
    rw [List.append_assoc] at list
    simp only [linkBehind, List.getLast?_append_cons, List.getLast?_singleton]
    exact next_word list

/-- A block leads to the node behind it, or nowhere. -/
theorem WellLinked.next_ne (linked : WellLinked sys h (front ++ block :: back)) (nonnull : n ≠ 0)
    (outside : n ∉ back) : h.word (block + 8) ≠ n := by
  cases back with
  | nil =>
    rw [last_word linked.list]
    exact Ne.symm nonnull
  | cons after back =>
    have next : h.word (block + 8) = after := next_word linked.list
    rw [next]
    rintro rfl
    exact outside List.mem_cons_self

/-- What led to a block that is out of the list leads to the node behind it. -/
theorem Unlinked.link (linked : WellLinked sys h (front ++ block :: back))
    (clear : block + total ∉ front) (unlinked : Unlinked h h' front block back total value) :
    h'.linkBehind front = h.word (block + 8) := by
  have leads := linkBehind_eq linked.list
  cases List.eq_nil_or_concat' front with
  | inl empty =>
    subst empty
    exact unlinked.head.trans (if_pos leads)
  | inr split =>
    obtain ⟨front, p, rfl⟩ := split
    simp only [linkBehind, List.getLast?_append_cons, List.getLast?_singleton] at leads ⊢
    have different : p ≠ block + total := by
      rintro rfl
      exact clear (by simp)
    exact (unlinked.links p (by simp) different).trans (if_pos leads)

/-- A remainder that is left out of the list is not what should be there. -/
theorem Unlinked.not_taken (linked : WellLinked sys h (front ++ block :: back))
    (more : total < h.word block) (unlinked : Unlinked h h' front block back total value) :
    ¬ FirstFitTaken h h' front block back total := by
  intro taken
  have more' : total < h.sizeAt block := more
  have list := taken.list
  rw [if_pos more', List.append_assoc] at list
  have bounds := linked.node_bounds (n := block) (by simp)
  have clear : ∀ n ∈ front ++ back, n ≠ block + total := fun n member => by
    have apart := (linked.others_apart member).2.1
    omega
  have link := unlinked.link linked fun hit => clear _ (List.mem_append_left _ hit) rfl
  have led := linkBehind_eq (show h'.FreeList (front ++ (block + total) :: back) from list)
  refine linked.next_ne ?_ (fun hit => clear _ (List.mem_append_right _ hit) rfl)
    (link.symm.trans led)
  omega

/-! ### `kumalloc` -/

theorem exactTotal_fits (linked : WellLinked sys h (front ++ block :: back))
    (fits : exactTotal size ≤ h.word block) : size + 15 < 2 ^ 64 := by
  have bounds := linked.node_bounds (n := block) (by simp)
  unfold exactTotal at fits
  omega

/-- The search finds the first block that is large enough. -/
theorem kumalloc_reuses (linked : WellLinked sys h (front ++ block :: back)) (positive : 0 < size)
    (smaller : ∀ n ∈ front, h.sizeAt n < exactTotal size) (fits : exactTotal size ≤ h.sizeAt block) :
    Settles .spent (front ++ block :: back).length rounds (kumalloc sys rounds h size)
      (reuseBlock sys rounds h block (exactTotal size) >>= fun g => .ok (block + 8, g)) := by
  have bounds := linked.node_bounds (n := block) (by simp)
  have found : h.firstFit (front ++ block :: back) (exactTotal size) = some block := by
    refine List.find?_eq_some_iff_append.mpr ⟨decide_eq_true fits, front, back, rfl, fun n member => ?_⟩
    simpa using smaller n member
  have readable : ∀ n ∈ front ++ block :: back,
      h.accessible sys n 8 = true ∧ h.accessible sys (n + 8) 8 = true := fun n member =>
    ⟨linked.node_accessible member (by omega) (by omega),
      linked.node_accessible member (by omega) (by omega)⟩
  have searched : Settles .spent _ rounds (kumalloc sys rounds h size) _ :=
    kumalloc_searched readable linked.list positive (totalSize_exact (exactTotal_fits linked fits))
  simp only [found] at searched
  rwa [add_header (show block < 2 ^ 63 by omega)] at searched

/-- The difference of the sizes as the code computes it, while it fits an `int`. -/
theorem sizeDiff_small (fits : total ≤ s) (small : s - total < 2 ^ 31) :
    subInt (toInt s) (toInt total) = ((s - total : Nat) : Int) := by
  rw [subInt_toInt fits, toInt_of_lt small]

/-- A `kumalloc` that did what it should took a clean path. -/
theorem FirstFitTaken.cuts (linked : WellLinked sys h (front ++ block :: back))
    (wide : 16 ≤ total) (aligned : total % 8 = 0) (fits : total ≤ h.word block)
    (ran : reuseBlock sys rounds h block total = .ok h')
    (taken : FirstFitTaken h h' front block back total) :
    CutsCleanly sys h front block back total := by
  by_cases more : total < h.word block
  · have more' : total < h.sizeAt block := more
    have beside : block + total ∉ front := fun hit => by
      have apart := (linked.others_apart (List.mem_append_left back hit)).2.1
      omega
    by_cases positive : 0 < subInt (toInt (h.word block)) (toInt total)
    · obtain ⟨behind, mapped, cut⟩ := reuseBlock_cut linked wide aligned more positive ran
      have remainder : h'.word (block + total) = h.word block - total := taken.remainder more'
      have below := toSize_of_pos positive (subInt_lt _ _)
      have value := cut.size.symm.trans remainder
      rw [value] at cut below
      refine ⟨behind, below, ?_, fun exact => absurd exact (Nat.ne_of_gt more'), fun _ =>
        cut.spilled linked more taken⟩
      rw [if_pos more']
      exact mapped
    · obtain ⟨-, ⟨hit, -⟩ | ⟨-, -, unlinked⟩⟩ :=
        reuseBlock_unlinked linked wide aligned fits positive ran
      · exact absurd hit beside
      · exact absurd taken (unlinked.not_taken linked more)
  · have exact : h.word block = total := by omega
    have none : ¬ total < h.sizeAt block := more
    have diff : subInt (toInt (h.word block)) (toInt total) = 0 := by
      rw [sizeDiff_small fits (by omega), exact, Nat.sub_self]
      rfl
    obtain ⟨mapped, left⟩ := reuseBlock_unlinked linked wide aligned fits (by rw [diff]; decide) ran
    rw [diff, show toSize 0 = 0 from rfl] at left
    have zeroed := taken_zeroed linked wide (fun n member => by
      rcases left with ⟨-, same⟩ | ⟨-, -, unlinked⟩
      · rw [same]
      · exact unlinked.sizes n member) taken
    refine ⟨?_, show h.word block - total < 2 ^ 31 by omega, ?_, fun _ => zeroed,
      fun more' => absurd more' none⟩
    · rcases left with ⟨hit, -⟩ | ⟨-, behind, -⟩
      · exact absurd rfl (zeroed _ (List.mem_append_left back hit)).1
      · exact behind
    · rw [if_neg none]
      exact mapped

/-- On a clean path the reuse returns and does what it should. -/
theorem CutsCleanly.taken (linked : WellLinked sys h (front ++ block :: back))
    (wide : 16 ≤ total) (aligned : total % 8 = 0) (fits : total ≤ h.word block)
    (clean : CutsCleanly sys h front block back total) (budget : front.length < rounds) :
    ∃ h', reuseBlock sys rounds h block total = .ok h' ∧
      FirstFitTaken h h' front block back total := by
  have diff := sizeDiff_small fits clean.small
  have size : toSize ((h.word block - total : Nat) : Int) = h.word block - total :=
    toSize_natCast (by have := word_lt h block; omega)
  have positive : 0 < subInt (toInt (h.word block)) (toInt total) ↔ total < h.word block := by
    rw [diff]
    omega
  have mapped := clean.mapped
  by_cases more : total < h.word block
  · have more' : total < h.sizeAt block := more
    have beside : block + total ∉ front := fun hit => by
      have apart := (linked.others_apart (List.mem_append_left back hit)).2.1
      omega
    rw [if_pos more'] at mapped
    obtain ⟨h', ran⟩ := reuseBlock_returns linked wide aligned fits clean.behind beside
      (by rw [if_pos (positive.mpr more)]; exact mapped) budget
    obtain ⟨-, -, cut⟩ := reuseBlock_cut linked wide aligned more (positive.mpr more) ran
    rw [diff, size] at cut
    exact ⟨h', ran, cut.taken linked more (clean.spilled more')⟩
  · have exact : h.word block = total := by omega
    have none : ¬ total < h.sizeAt block := more
    have zeroed := clean.zeroed exact
    rw [if_neg none] at mapped
    have spent := mt positive.mp more
    have beside : block + total ∉ front := fun hit =>
      absurd rfl (zeroed _ (List.mem_append_left back hit)).1
    obtain ⟨h', ran⟩ := reuseBlock_returns linked wide aligned fits clean.behind beside
      (by rw [if_neg spent]; exact mapped) budget
    obtain ⟨-, ⟨hit, -⟩ | ⟨-, -, unlinked⟩⟩ := reuseBlock_unlinked linked wide aligned fits spent ran
    · exact absurd hit beside
    · exact ⟨h', ran, unlinked.taken linked aligned exact zeroed⟩

/-- `kumalloc` takes the first listed block that is large enough, cuts it and
relinks the list, and nothing else, exactly for requests of at least one byte on
the clean paths. -/
theorem kumalloc_first_fit (linked : WellLinked sys h nodes)
    (large : ∃ n ∈ nodes, exactTotal size ≤ h.sizeAt n) :
    ∃ front block back, nodes = front ++ block :: back ∧
      (∀ n ∈ front, h.sizeAt n < exactTotal size) ∧ exactTotal size ≤ h.sizeAt block ∧
      ((∃ rounds h', kumalloc sys rounds h size = .ok (block + 8, h') ∧
          FirstFitTaken h h' front block back (exactTotal size)) ↔
        0 < size ∧ CutsCleanly sys h front block back (exactTotal size)) := by
  obtain ⟨block, found⟩ := Option.isSome_iff_exists.mp
    (List.find?_isSome (p := fun n => decide (exactTotal size ≤ h.sizeAt n)) |>.mpr
      (large.imp fun n holds => ⟨holds.1, decide_eq_true holds.2⟩))
  obtain ⟨fits, front, back, rfl, passed⟩ := List.find?_eq_some_iff_append.mp found
  have fits : exactTotal size ≤ h.sizeAt block := of_decide_eq_true fits
  have smaller : ∀ n ∈ front, h.sizeAt n < exactTotal size := fun n member => by
    simpa using passed n member
  refine ⟨front, block, back, rfl, smaller, fits, ?_⟩
  have aligned : exactTotal size % 8 = 0 := Nat.mul_mod_left _ _
  have wide : 0 < size → 16 ≤ exactTotal size := fun positive => by
    unfold exactTotal
    omega
  constructor
  · rintro ⟨rounds, h', ran, taken⟩
    have positive : 0 < size := by
      refine Nat.pos_of_ne_zero fun zero => ?_
      simp only [kumalloc, if_pos zero] at ran
      cases ran
    obtain ⟨g, reused, last⟩ := bind_eq_ok.mp
      ((kumalloc_reuses linked positive smaller fits).returned ran)
    cases last
    exact ⟨positive, taken.cuts linked (wide positive) aligned fits reused⟩
  · rintro ⟨positive, clean⟩
    have budget : front.length < (front ++ block :: back).length + 1 := by
      simp only [List.length_append]
      omega
    obtain ⟨h', reused, taken⟩ := clean.taken linked (wide positive) aligned fits budget
    refine ⟨(front ++ block :: back).length + 1, h', ?_, taken⟩
    rw [(kumalloc_reuses linked positive smaller fits).reached (Nat.lt_succ_self _), reused]
    rfl

/-- A free block, as the three words of its node. -/
def freeNode (node size next prev : Nat) (mem : Memory) : Memory :=
  storeBytes (storeBytes (storeBytes mem node size 8) (node + 8) next 8) (node + 16) prev 8

/-- Two free blocks, the second one larger. -/
def twoFree : Heap :=
  ⟨freeNode 65536 24 65600 0 (freeNode 65600 64 0 65536 fun _ => 0), 65536, 65664, 8064, 73728, 1, 0⟩

/-- Three free blocks, the second one the largest. -/
def threeFree : Heap :=
  ⟨freeNode 65536 24 65600 0 (freeNode 65600 64 65696 65536 (freeNode 65696 40 0 65600 fun _ => 0)),
    65536, 65760, 7968, 73728, 1, 0⟩

theorem extents_apart {nodes : List Nat} (spaced : ∀ n ∈ nodes, ∀ m ∈ nodes, n ≠ m →
    n + h.sizeAt n ≤ m ∨ m + h.sizeAt m ≤ n) :
    ∀ n ∈ nodes, ∀ m ∈ nodes, n ≠ m → (h.extentAt n).Apart (h.extentAt m) := by
  intro n inN m inM different x inside inside'
  have order := spaced n inN m inM different
  simp only [extentAt, Extent.Holds, Extent.stop] at inside inside'
  omega

theorem twoFree_linked : WellLinked pagedSystem twoFree [65536, 65600] where
  list := chain_cons.mpr ⟨rfl, by decide, chain_cons.mpr ⟨by decide, by decide,
    chain_nil.mpr (by decide)⟩⟩
  first := by decide
  mirrored n m := (by decide : ∀ link ∈ [(65536, 65600)], twoFree.prevAt link.2 = link.1) (n, m)
  wide := by decide
  aligned := by decide
  apart := extents_apart (by decide)
  mapped := by decide

theorem threeFree_linked : WellLinked pagedSystem threeFree [65536, 65600, 65696] where
  list := chain_cons.mpr ⟨rfl, by decide, chain_cons.mpr ⟨by decide, by decide,
    chain_cons.mpr ⟨by decide, by decide, chain_nil.mpr (by decide)⟩⟩⟩
  first := by decide
  mirrored n m := (by decide : ∀ link ∈ [(65536, 65600), (65600, 65696)],
    threeFree.prevAt link.2 = link.1) (n, m)
  wide := by decide
  aligned := by decide
  apart := extents_apart (by decide)
  mapped := by decide

/-- The first block is too small; half of the second one is left in front of the third. -/
theorem kumalloc_first_fit_between : ∃ rounds h', kumalloc pagedSystem rounds threeFree 24 =
    .ok (65608, h') ∧ FirstFitTaken threeFree h' [65536] 65600 [65696] 32 := by
  have large : ∃ n ∈ [65536, 65600, 65696], exactTotal 24 ≤ threeFree.sizeAt n :=
    ⟨65600, by simp, by decide⟩
  obtain ⟨front, block, back, shape, smaller, fits, taken⟩ := kumalloc_first_fit threeFree_linked large
  rcases front with _ | ⟨n, _ | ⟨m, front⟩⟩
  · obtain ⟨rfl, -⟩ := List.cons.inj shape
    exact absurd fits (by decide)
  · obtain ⟨rfl, rest⟩ := List.cons.inj shape
    obtain ⟨rfl, rfl⟩ := List.cons.inj rest
    exact taken.mpr ⟨by decide, by decide, by decide, by decide, by decide, by decide⟩
  · obtain ⟨-, rest⟩ := List.cons.inj shape
    obtain ⟨rfl, -⟩ := List.cons.inj rest
    exact absurd (smaller 65600 (by simp)) (by decide)

/-- The last block is the first that is large enough. -/
theorem first_fit_at_the_end : WellLinked pagedSystem twoFree [65536, 65600] ∧
    (∃ n ∈ [65536, 65600], exactTotal 24 ≤ twoFree.sizeAt n) ∧
    twoFree.firstFit [65536, 65600] (exactTotal 24) = some 65600 ∧
    ∀ rounds h', kumalloc pagedSystem rounds twoFree 24 ≠ .ok (65608, h') := by
  refine ⟨twoFree_linked, ⟨65600, by simp, by decide⟩, by decide, fun rounds h' ran => ?_⟩
  have linked : WellLinked pagedSystem twoFree ([65536] ++ 65600 :: []) := twoFree_linked
  obtain ⟨g, reused, -⟩ := bind_eq_ok.mp
    ((kumalloc_reuses linked (by decide) (by decide) (by decide)).returned ran)
  have positive : 0 < subInt (toInt (twoFree.word 65600)) (toInt 32) := by decide
  exact (reuseBlock_cut linked (by decide) (by decide) (by decide) positive reused).1 (by simp) rfl

end

end Comp304.Alloc
